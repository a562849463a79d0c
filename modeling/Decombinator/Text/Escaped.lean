/-
Raw texts as strings.

U+10FFFF is the escape.  Two of them stand for that character itself, and one before
another character stands for a stray byte.  All other characters stand for themselves, so
that a raw text and its escaped form fall into the same words.  Different raw texts have
different escaped forms, by `toRaw_ofRaw`: names that are compared in escaped form are the
same only if they were entered the same.
-/
import Decombinator.Text.Blank
import Decombinator.Text.Bytes

namespace Decombinator.Text.Escaped

def mark : Char := Char.ofNat 0x10ffff

/-- The character that stands for a stray byte after the escape. -/
def byteChar (b : UInt8) : Char :=
  Char.ofNat (0x100 + b.toNat)

def ofGlyph : Glyph → List Char
  | .char c => if c = mark then [mark, mark] else [c]
  | .stray b => [mark, byteChar b]

def ofRaw (text : RawText) : String :=
  String.ofList (text.flatMap ofGlyph)

def ofString (text : String) : String :=
  ofRaw (.ofString text)

def toRawChars : List Char → RawText
  | [] => []
  | [c] => [.char c]
  | c :: d :: cs =>
    if c = mark then
      (if d = mark then .char mark else .stray (UInt8.ofNat (d.toNat - 0x100))) :: toRawChars cs
    else .char c :: toRawChars (d :: cs)

def toRaw (text : String) : RawText :=
  toRawChars text.toList

/-- What shows for an escaped text. -/
def shown (text : String) : String :=
  (toRaw text).shown

/-- How many bytes of a raw text stand before a byte column of its escaped form. -/
def bytesBefore : RawText → Nat → Nat
  | [], _ => 0
  | g :: gs, col =>
    let written := byteLength (ofGlyph g)
    if col < written then 0 else g.width + bytesBefore gs (col - written)

/-- The column in a raw text from the column in its escaped form. -/
def column (text : String) (col : Nat) : Nat :=
  bytesBefore (toRaw text) col

/-! ### Reading back -/

theorem toNat_byteChar (b : UInt8) : (byteChar b).toNat = 0x100 + b.toNat := by
  have := b.toNat_lt
  have valid : (0x100 + b.toNat).isValidChar := by left; omega
  rw [byteChar, Char.ofNat, dif_pos valid]
  rfl

theorem byteChar_ne_mark (b : UInt8) : byteChar b ≠ mark := by
  intro h
  have := b.toNat_lt
  have : (byteChar b).toNat = mark.toNat := by rw [h]
  rw [toNat_byteChar, show mark.toNat = 0x10ffff from rfl] at this
  omega

theorem toRawChars_char {c : Char} (h : c ≠ mark) (cs : List Char) :
    toRawChars (c :: cs) = .char c :: toRawChars cs := by
  cases cs with
  | nil => rfl
  | cons d cs => simp [toRawChars, h]

theorem toRawChars_ofGlyph (g : Glyph) (cs : List Char) :
    toRawChars (ofGlyph g ++ cs) = g :: toRawChars cs := by
  cases g with
  | char c =>
    by_cases h : c = mark
    · simp [ofGlyph, h, toRawChars]
    · simp [ofGlyph, h, toRawChars_char h]
  | stray b => simp [ofGlyph, toRawChars, byteChar_ne_mark, toNat_byteChar]

theorem toRaw_ofRaw (text : RawText) : toRaw (ofRaw text) = text := by
  simp only [toRaw, ofRaw, String.toList_ofList]
  induction text with
  | nil => rfl
  | cons g gs ih => rw [List.flatMap_cons, toRawChars_ofGlyph, ih]

end Decombinator.Text.Escaped
