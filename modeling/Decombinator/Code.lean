/-
Combinator code: application trees over integers, symbols and primitives.

This is what a line of source denotes.  A call with several arguments is a chain of
applications to the left, and a symbol refers to another definition.
-/
import Decombinator.Prim
import Decombinator.Text.Integer

namespace Decombinator

inductive Code
  | ap (f x : Code)
  | int (n : Int64)
  | sym (x : String)
  | prim (p : Prim)
  deriving DecidableEq

namespace Code

/-- The source text of the tree. -/
def print : Code → String
  | ap f x => "ap " ++ f.print ++ " " ++ x.print
  | int n => Text.int64Text n
  | sym x => x
  | prim p => p.spelling

/-- The symbols of the tree from left to right, repetitions included. -/
def occurrences : Code → List String
  | ap f x => f.occurrences ++ x.occurrences
  | sym x => [x]
  | int _ | prim _ => []

/-- The distinct symbols of the tree, in order of first occurrence. -/
def symbols (c : Code) : List String :=
  c.occurrences.eraseDups

/-- The list with the given elements: cons cells ending in nil. -/
def list (items : List Code) : Code :=
  items.foldr (fun head tail => ap (ap (prim .cons) head) tail) (prim .nil)

end Code

/-- A named piece of code. -/
structure Definition where
  name : String
  value : Code
  deriving DecidableEq

namespace Definition

def print (d : Definition) : String :=
  d.name ++ " = " ++ d.value.print

end Definition

end Decombinator
