/-
Tokens of combinator code.

A line of code is cut at blanks and every word is a token.  A word that is a keyword
stands for itself, a word that writes a 64-bit integer is that integer, and any
other word is a symbol.  So lexing never fails; what does not belong is left for the
parser to reject, at the column kept here.

There is no token for the end of input.  The end is where the list of tokens ends,
and its column is the length of the text.
-/
import Decombinator.Prim
import Decombinator.Text.Blank
import Decombinator.Text.Integer

namespace Decombinator

namespace Token

inductive Kind
  | sym
  | int (value : Int64)
  | ap
  | equals
  | lparen
  | comma
  | rparen
  | prim (p : Prim)
  deriving DecidableEq

/-- The name of a kind in messages: its spelling, where it has only one. -/
def Kind.label : Kind → String
  | sym => "SYMBOL"
  | int _ => "INTEGER"
  | ap => "ap"
  | equals => "="
  | lparen => "("
  | comma => ","
  | rparen => ")"
  | prim p => p.spelling

/-- The keywords in the order of their bytes. -/
def keywords : List (String × Kind) :=
  [("(", .lparen), (")", .rparen), (",", .comma), ("=", .equals),
    ("add", .prim .add), ("ap", .ap), ("b", .prim .b), ("c", .prim .c), ("car", .prim .car),
    ("cdr", .prim .cdr), ("cons", .prim .cons), ("div", .prim .div), ("eq", .prim .eq),
    ("i", .prim .i), ("isnil", .prim .isnil), ("lt", .prim .lt), ("mul", .prim .mul),
    ("neg", .prim .neg), ("nil", .prim .nil), ("s", .prim .s), ("t", .prim .t)]

/-- The kind of token that a word is. -/
def Kind.ofWord (w : String) : Kind :=
  match keywords.lookup w with
  | some k => k
  | none =>
    match Text.readInt w with
    | some n => .int n
    | none => .sym

end Token

/-- A word of a line of code, with the byte column at which it starts. -/
structure Token where
  kind : Token.Kind
  lexeme : String
  col : Nat
  deriving DecidableEq

namespace Token

def ofChunk (w : Text.Chunk) : Token :=
  let lexeme := String.ofList w.text
  ⟨Kind.ofWord lexeme, lexeme, w.col⟩

/-- The tokens of a text, in order. -/
def lex (text : String) : List Token :=
  (Text.chunks text).map ofChunk

end Token

end Decombinator
