/-
Lambda terms with list literals and the constant false.

Shrinking leaves false in one of two shapes, `λx. λy. (t y) (x y)` and `t (λx. x)`,
and leaves lists as chains of `cons` that end in `nil`.  Folding recognises both.  The
constant true stays the primitive `t`; the primitive `nil` becomes the empty list, so
it does not occur in a folded term.
-/
import Decombinator.Lambda

namespace Decombinator

inductive Folded
  | fn (p : String) (body : Folded)
  | ap (f x : Folded)
  | list (items : List Folded)
  | sym (x : String)
  | int (n : Int64)
  | prim (p : Prim)
  | falsity

namespace Folded

mutual

def print : Folded → String
  | fn p body => "\x7b\\" ++ p ++ "." ++ print body ++ "\x7d"
  | ap f x => "(" ++ print f ++ " " ++ print x ++ ")"
  | list items => "[" ++ String.intercalate ", " (printAll items) ++ "]"
  | sym x => x
  | int n => Text.int64Text n
  | prim p => p.sign
  | falsity => "f"

def printAll : List Folded → List String
  | [] => []
  | t :: ts => print t :: printAll ts

end

mutual

/-- Whether two terms are the same tree. -/
def equal : Folded → Folded → Bool
  | fn p b, fn q c => p == q && equal b c
  | ap f x, ap g y => equal f g && equal x y
  | list xs, list ys => equalAll xs ys
  | sym x, sym y => x == y
  | int m, int n => m == n
  | prim p, prim q => p == q
  | falsity, falsity => true
  | _, _ => false

def equalAll : List Folded → List Folded → Bool
  | [], [] => true
  | x :: xs, y :: ys => equal x y && equalAll xs ys
  | _, _ => false

end

/-! ### Folding -/

/-- The shapes that shrinking leaves for false. -/
def isFalse : Lambda → Bool
  | .fn x (.fn y (.ap (.ap (.prim .t) (.sym y₁)) (.ap (.sym x₁) (.sym y₂)))) =>
    y₁ == y && x₁ == x && y₂ == y
  | .ap (.prim .t) (.fn x (.sym x₁)) => x₁ == x
  | _ => false

/-- An application, as a longer list literal if it puts an element in front of one. -/
def apply : Folded → Folded → Folded
  | ap (prim .cons) head, list tail => list (head :: tail)
  | f, x => ap f x

def ofPrim : Prim → Folded
  | .nil => list []
  | p => prim p

/-- Folds false and list literals. -/
def ofLambda : Lambda → Folded
  | .fn p body => if isFalse (.fn p body) then falsity else fn p (ofLambda body)
  | .ap f x => if isFalse (.ap f x) then falsity else apply (ofLambda f) (ofLambda x)
  | .sym x => sym x
  | .int n => int n
  | .prim p => ofPrim p

end Folded

end Decombinator
