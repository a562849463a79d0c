/-
Lines of an input that is read through a buffer.

A line ends at a line feed, and a carriage return before that belongs to its ending.  What
follows the last line feed is a line only if there is something, and keeps its carriage
return.  The buffer holds 4096 bytes.  A line that does not fit into it, together with its
ending, is given out in parts, as if it were several lines; a carriage return at the end
of a part is kept for the next one, where it may turn out to belong to the ending.

A part may end inside a character, so lines are raw texts.
-/
import Decombinator.Text.Bytes

namespace Decombinator.Text

/-- A line as it was read. -/
structure InputLine where
  text : RawText
  /-- Whether this is a whole line or the last part of one. -/
  ended : Bool := true

namespace InputLine

/-- The number of bytes that a line may have together with its ending. -/
def limit : Nat := 4096

def ofBytes (bytes : List UInt8) (ended : Bool) : InputLine :=
  { text := .ofBytes ⟨bytes.toArray⟩, ended }

end InputLine

/-- The line without one carriage return at its end. -/
def dropReturn (line : List UInt8) : List UInt8 :=
  if line.getLast? = some 0x0d then line.dropLast else line

theorem length_dropReturn (line : List UInt8) : line.length - 1 ≤ (dropReturn line).length := by
  unfold dropReturn
  split
  · simp
  · omega

/-- The lines and parts of lines that bytes hold. -/
def inputLinesOf (bytes : List UInt8) : List InputLine :=
  if h : bytes = [] then []
  else
    let line := (bytes.take InputLine.limit).takeWhile (· != 0x0a)
    if line.length < InputLine.limit then
      if line.length < bytes.length then
        .ofBytes (dropReturn line) true :: inputLinesOf (bytes.drop (line.length + 1))
      else [.ofBytes line true]
    else
      let part := dropReturn line
      .ofBytes part false :: inputLinesOf (bytes.drop part.length)
termination_by bytes.length
decreasing_by
  · have := List.length_pos_iff.2 h
    simp only [List.length_drop]
    omega
  · have := List.length_pos_iff.2 h
    have := length_dropReturn line
    have : InputLine.limit ≤ line.length := Nat.le_of_not_lt ‹_›
    show (bytes.drop (dropReturn line).length).length < bytes.length
    simp only [List.length_drop, InputLine.limit] at *
    omega

def inputLines (text : String) : List InputLine :=
  inputLinesOf text.toUTF8.data.toList

end Decombinator.Text
