/-
Blank characters, and the words between them.

A blank is a code point with the Unicode property White_Space.  Everything that
separates text in this library does so at blanks: tokens in a line of code, words
of a command, the ends of an entry that are trimmed away.

`chunks` is the one function that cuts text into words.  It keeps the byte column
of each word, because that is what errors point at.
-/
namespace Decombinator.Text

/-- The code points that separate words. -/
def isBlank (c : Char) : Bool :=
  let n := c.toNat
  (0x09 ≤ n && n ≤ 0x0d) || n == 0x20 || n == 0x85 || n == 0xa0 || n == 0x1680 ||
    (0x2000 ≤ n && n ≤ 0x200a) || n == 0x2028 || n == 0x2029 || n == 0x202f ||
    n == 0x205f || n == 0x3000

/-- The number of bytes that the characters take in UTF-8. -/
def byteLength (cs : List Char) : Nat :=
  cs.foldr (fun c n => c.utf8Size + n) 0

/-- A word and the byte column at which it starts. -/
structure Chunk where
  col : Nat
  text : List Char
  deriving DecidableEq

/-- The maximal runs of characters that are not blank, with their columns counted from `col`. -/
def chunksFrom (col : Nat) : List Char → List Chunk
  | [] => []
  | c :: cs =>
    if isBlank c then chunksFrom (col + c.utf8Size) cs
    else
      let word := c :: cs.takeWhile (!isBlank ·)
      ⟨col, word⟩ :: chunksFrom (col + byteLength word) (cs.dropWhile (!isBlank ·))
termination_by cs => cs.length
decreasing_by
  · simp
  · have := (List.dropWhile_sublist (l := cs) (p := (!isBlank ·))).length_le
    simp only [List.length_cons]
    omega

/-- The words of a text with their byte columns. -/
def chunks (text : String) : List Chunk :=
  chunksFrom 0 text.toList

/-- The words of a text. -/
def words (text : String) : List String :=
  (chunks text).map fun w => String.ofList w.text

/-- The text without the blanks at its two ends. -/
def trim (text : String) : String :=
  let front := text.toList.dropWhile isBlank
  String.ofList (front.reverse.dropWhile isBlank).reverse

/-- A text of blanks only, the empty text included. -/
def isBlankText (text : String) : Bool :=
  text.toList.all isBlank

end Decombinator.Text
