/-
The primitives of combinator code.

There are sixteen of them and the set is closed.  Each has one spelling, which is
also how it is written in source text.  Four are closed combinators, `s`, `i`, `b`
and `c`: they are the ones that combinator elimination replaces by functions.  The
other twelve survive every later stage.
-/
namespace Decombinator

inductive Prim
  | add | b | c | car | cdr | cons | div | eq | i | isnil | lt | mul | neg | nil | s | t
  deriving DecidableEq

namespace Prim

/-- Every primitive, in the order of its spelling. -/
def all : List Prim :=
  [add, b, c, car, cdr, cons, div, eq, i, isnil, lt, mul, neg, nil, s, t]

def spelling : Prim → String
  | add => "add"
  | b => "b"
  | c => "c"
  | car => "car"
  | cdr => "cdr"
  | cons => "cons"
  | div => "div"
  | eq => "eq"
  | i => "i"
  | isnil => "isnil"
  | lt => "lt"
  | mul => "mul"
  | neg => "neg"
  | nil => "nil"
  | s => "s"
  | t => "t"

/-- The primitive written `w`, if there is one. -/
def ofSpelling? (w : String) : Option Prim :=
  all.find? fun p => p.spelling == w

/-- The closed combinators, which combinator elimination removes. -/
def isCombinator : Prim → Bool
  | s | i | b | c => true
  | _ => false

/-- How a primitive is shown inside a lambda term: comparisons and negation as signs. -/
def sign : Prim → String
  | eq => "=="
  | lt => "<"
  | neg => "~-"
  | p => p.spelling

end Prim

end Decombinator
