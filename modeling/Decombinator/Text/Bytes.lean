/-
Text as bytes.

A text that is handled in pieces of a fixed number of bytes can be cut inside a character.
What is left of the character on either side of the cut is stray: bytes that belong to no
character.  A raw text is one that may have such bytes.  Where a stray byte has to be
shown it shows as U+FFFD, but it is a different thing from that character, and from other
stray bytes.
-/
namespace Decombinator.Text

/-- The character that shows for what cannot be read. -/
def replacement : Char := Char.ofNat 0xfffd

/-- What stands at one place in a sequence of bytes. -/
inductive Glyph
  | char (c : Char)
  /-- A byte that belongs to no character. -/
  | stray (byte : UInt8)
  deriving DecidableEq

namespace Glyph

/-- The character that shows. -/
def toChar : Glyph → Char
  | char c => c
  | stray _ => replacement

/-- The number of bytes. -/
def width : Glyph → Nat
  | char c => c.utf8Size
  | stray _ => 1

def bytes : Glyph → List UInt8
  | char c => String.utf8EncodeChar c
  | stray b => [b]

end Glyph

abbrev RawText := List Glyph

namespace RawText

def ofString (text : String) : RawText :=
  text.toList.map .char

/-- What the bytes from position `i` on write. -/
def ofBytesFrom (bytes : ByteArray) (i : Nat) : RawText :=
  if h : i < bytes.size then
    match bytes.utf8DecodeChar? i with
    | some c => .char c :: ofBytesFrom bytes (i + c.utf8Size)
    | none => .stray bytes[i] :: ofBytesFrom bytes (i + 1)
  else []
termination_by bytes.size - i
decreasing_by
  · have := c.utf8Size_pos
    omega
  · omega

def ofBytes (bytes : ByteArray) : RawText :=
  ofBytesFrom bytes 0

def toBytes (text : RawText) : ByteArray :=
  ⟨(text.flatMap Glyph.bytes).toArray⟩

/-- The characters that show. -/
def chars (text : RawText) : List Char :=
  text.map Glyph.toChar

def shown (text : RawText) : String :=
  String.ofList text.chars

end RawText

end Decombinator.Text
