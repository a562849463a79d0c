/-
Text in double quotes, as messages show it.

Printable characters stand for themselves, except that the quote and the backslash are
preceded by a backslash.  The control characters that have a letter of their own use it;
every other character is written by its code point in lower-case hexadecimal, with two,
four or eight digits.
-/
import Decombinator.Text.Printable

namespace Decombinator.Text

/-- The lower-case hexadecimal digits of `n`, the lowest `width` of them. -/
def hex : Nat → Nat → List Char
  | 0, _ => []
  | width + 1, n => hex width (n / 16) ++ [Nat.digitChar (n % 16)]

def escape (c : Char) : List Char :=
  if c = '"' then ['\\', '"']
  else if c = '\\' then ['\\', '\\']
  else if isPrintable c then [c]
  else
    match c.toNat with
    | 0x07 => ['\\', 'a']
    | 0x08 => ['\\', 'b']
    | 0x0c => ['\\', 'f']
    | 0x0a => ['\\', 'n']
    | 0x0d => ['\\', 'r']
    | 0x09 => ['\\', 't']
    | 0x0b => ['\\', 'v']
    | n =>
      if n < 0x20 || n == 0x7f then '\\' :: 'x' :: hex 2 n
      else if n < 0x10000 then '\\' :: 'u' :: hex 4 n
      else '\\' :: 'U' :: hex 8 n

def quote (text : String) : String :=
  String.ofList ('"' :: text.toList.flatMap escape ++ ['"'])

end Decombinator.Text
