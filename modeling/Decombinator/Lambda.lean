/-
Lambda terms with named parameters.

They are combinator code after the combinators have become functions.  A symbol is
bound when an enclosing function has it as its parameter, and otherwise refers to
another definition, as in code.
-/
import Decombinator.Prim
import Decombinator.Text.Integer

namespace Decombinator

inductive Lambda
  | fn (p : String) (body : Lambda)
  | ap (f x : Lambda)
  | sym (x : String)
  | int (n : Int64)
  | prim (p : Prim)
  deriving DecidableEq

namespace Lambda

def print : Lambda → String
  | fn p body => "\x7b\\" ++ p ++ "." ++ body.print ++ "\x7d"
  | ap f x => "(" ++ f.print ++ " " ++ x.print ++ ")"
  | sym x => x
  | int n => Text.int64Text n
  | prim p => p.sign

/-- The number of nodes. -/
def size : Lambda → Nat
  | fn _ body => body.size + 1
  | ap f x => f.size + x.size + 1
  | sym _ | int _ | prim _ => 1

/-- How often a name is used.  Parameter positions do not count. -/
def count (x : String) : Lambda → Nat
  | fn _ body => body.count x
  | ap f a => f.count x + a.count x
  | sym y => if y = x then 1 else 0
  | int _ | prim _ => 0

/-- The terms that may be copied freely. -/
def isAtom : Lambda → Bool
  | sym _ | int _ => true
  | _ => false

end Lambda

end Decombinator
