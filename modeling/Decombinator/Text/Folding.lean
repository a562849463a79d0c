/-
Text put into lower case, block by block.

Texts are searched without regard to case by putting both sides into lower case first.
That is done in blocks of 128 bytes, and in long texts the blocks show:

* A block may end inside a character.  Its bytes on either side of the cut are stray, and
  each gives U+FFFD.
* As long as blocks are in lower case already, they are taken as they are.  From the first
  other block on, characters are written to a buffer.  A character that does not fit into
  the room left there is lost, and the buffer grows when nothing fitted at all.
* U+FFFD counts as one byte read, also where the text has it, so that its other two bytes
  are read once more, as stray ones.

The buffer starts at the size of a block.  If the text taken as it is did not fit into
that, it starts at the size that the whole text needs if all other characters keep their
lengths.
-/
import Decombinator.Text.Blank
import Decombinator.Text.Bytes
import Decombinator.Text.Lowercase

namespace Decombinator.Text.Folding

/-- The number of bytes in a block. -/
def blockSize : Nat := 128

def block (bytes : ByteArray) (pos : Nat) : ByteArray :=
  bytes.extract pos (pos + blockSize)

/-- The number of bytes that reading a glyph counts for. -/
def bytesRead (g : Glyph) : Nat :=
  if g.toChar = replacement then 1 else g.toChar.utf8Size

/-- What became of a block. -/
structure Pass where
  written : List Char := []
  read : Nat := 0
  /-- Whether a character did not fit.  It counts as read. -/
  full : Bool := false

/-- Puts glyphs into lower case, into `room` bytes, up to the first that does not fit. -/
def pass (room : Nat) : RawText → Pass
  | [] => {}
  | g :: gs =>
    let c := lowerChar g.toChar
    if room < c.utf8Size then { read := bytesRead g, full := true }
    else
      let rest := pass (room - c.utf8Size) gs
      { rest with written := c :: rest.written, read := bytesRead g + rest.read }

/-- The size to which a buffer grows. -/
def grown (size : Nat) : Nat :=
  if size ≤ 256 then 2 * size else size + size / 2

/-- Goes on from `pos` with a buffer of `size` bytes that holds `out`.  Every round reads at
least one byte, except for a last one at the end of the text. -/
def fill (bytes : ByteArray) : Nat → Nat → Nat → List Char → List Char
  | 0, _, _, out => out
  | fuel + 1, pos, size, out =>
    let p := pass (size - byteLength out) (RawText.ofBytes (block bytes pos))
    let pos := pos + p.read
    if p.full then
      fill bytes fuel pos (if p.written.isEmpty then grown size else size) (out ++ p.written)
    else if bytes.size ≤ pos then out ++ p.written
    else fill bytes fuel pos size (out ++ p.written)

/-- Goes on from `pos`, where all blocks so far were `kept` as they are. -/
def keep (bytes : ByteArray) : Nat → Nat → List Char → List Char
  | 0, _, kept => kept
  | fuel + 1, pos, kept =>
    let source := block bytes pos
    let p := pass blockSize (RawText.ofBytes source)
    let out := kept ++ p.written
    let next := pos + p.read
    let unchanged := (String.ofList p.written).toUTF8 == source.extract 0 p.read
    if !p.full && bytes.size ≤ next then out
    else if !p.full && unchanged then keep bytes fuel next out
    else
      let size :=
        if byteLength out ≤ blockSize then blockSize
        else bytes.size + byteLength p.written - p.read
      fill bytes (bytes.size + 1) next size out

end Folding

/-- The text in lower case as searches compare it. -/
def folded (text : RawText) : List Char :=
  let bytes := text.toBytes
  Folding.keep bytes (bytes.size + 1) 0 []

end Decombinator.Text
