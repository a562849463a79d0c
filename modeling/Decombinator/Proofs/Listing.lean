/-
What becomes of a listing.

A listing is read line by line, and each line on its own.  So the lines fall into those
before the first one that cannot be read, and the rest: the output is what the former
print, and the error is that of the first of the rest, if there is one.

Four functions have a say in this, and they have to agree.  A line is passed over if it is
all blank, and tokens are what stands between blanks; so a line is passed over exactly if it
has no tokens.  The error's column comes from the line without its carriage returns, and the
caret is put under the line without its carriage returns; so the column is never moved.  It
counts bytes, and is at most the length of the line, where the end of input is.

Positions are 64-bit numbers, and so is the column counted from one.
-/
import Decombinator.Listing
import Decombinator.Proofs.Code.Reader

namespace Decombinator

/-! ### Lines -/

namespace Text

end Text

namespace Problem

end Problem

namespace Listing

open Problem

/-! ### Reading -/

variable {dict : Dictionary} {name source line : String} {before after : List String}
  {e : ParseError} {n : Nat}

example :
    let source := "x = ap neg 1\r\n \r\ny = ap 2\r\nz = 3"
    (read .empty source).output = "x = -1\n" ∧
      (read .empty source).failure? "f" source =
        some ("PARSE ERROR in f at 3:9: unexpected end of input\n\n" ++
          "   2 |  \n" ++
          "   3 | y = ap 2\n" ++
          "     |         ^\n" ++
          "   4 | z = 3\n") := by
  decide +kernel

end Listing

end Decombinator
