/-
Fuzzy search in a dictionary.

An entry matches when the characters of the query occur in its reference and name, in
order but not necessarily side by side, whatever their case.  Matches are ranked by their
edit distance from the query, where case does count; entries at the same distance keep
the dictionary's order.
-/
import Decombinator.Dictionary
import Decombinator.Text.Folding

namespace Decombinator

namespace Text

/-- One row of the table of edit distances, from the row above.  `left` is the entry just
written and `corner` the one above it. -/
def distanceRow (c : Char) : Nat → Nat → List Char → List Nat → List Nat
  | left, corner, a :: as, above :: row =>
    let change := if a = c then corner else corner + 1
    let d := min (min (above + 1) (left + 1)) change
    d :: distanceRow c d above as row
  | _, _, _, _ => []

/-- The row after one more character `c`; the rows run over the prefixes of `s`. -/
def nextDistances (s : List Char) (row : List Nat) (c : Char) : List Nat :=
  match row with
  | [] => []
  | corner :: row => (corner + 1) :: distanceRow c (corner + 1) corner s row

/-- The least number of insertions, deletions and replacements of single characters that
turn one text into the other. -/
def editDistance (s t : List Char) : Nat :=
  (t.foldl (nextDistances s) (List.range (s.length + 1))).getLast?.getD 0

/-- Whether the characters of `query` occur in `target` in order, whatever their case. -/
def matchesLoosely (query target : RawText) : Bool :=
  (folded query).isSublist (folded target)

/-- Pads on the right with spaces to a number of characters. -/
def padRight (width : Nat) (text : String) : String :=
  text ++ String.ofList (List.replicate (width - text.length) ' ')

end Text

/-- The text in which an entry is searched for. -/
def Entry.searchText (e : Entry) : Text.RawText :=
  .ofString (e.ref ++ " " ++ e.name)

def Entry.print (e : Entry) : String :=
  let line := Text.padRight 6 e.ref ++ "  " ++ e.name
  match e.signature with
  | some sig => line ++ " : " ++ sig.print
  | none => line

namespace Dictionary

/-- The entries that match a query, the closest first. -/
def search (d : Dictionary) (query : Text.RawText) : List Entry :=
  let found := d.entries.filter fun e => Text.matchesLoosely query e.searchText
  let ranked := found.map fun e => (Text.editDistance query.chars e.searchText.chars, e)
  (ranked.mergeSort fun a b => a.1 ≤ b.1).map Prod.snd

/-- The entries to show for a query.  The empty query asks for all of them. -/
def matching (d : Dictionary) (query : Text.RawText) : List Entry :=
  if query = [] then d.entries else d.search query

/-- The first entries that match a query, one to a line.  A limit of zero is none. -/
def printMatches (d : Dictionary) (query : Text.RawText) (limit : Nat) : String :=
  let found := d.matching query
  if found.isEmpty then "no matches\n"
  else
    let shown := if limit = 0 then found else found.take limit
    String.join (shown.map fun e => e.print ++ "\n")

end Dictionary

end Decombinator
