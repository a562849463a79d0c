/-
Combinator elimination.

Each occurrence of a combinator becomes a function that does what the combinator does:

    i = λx. x                       b = λx. λy. λz. x (y z)
    c = λx. λy. λz. (x z) y         s = λx. λy. λz. (x z) (y z)

Every parameter gets a name of its own.  Names are numbered through the whole tree,
functions before arguments, and numbers whose name is a symbol of the tree are passed
over.  So no name is bound twice and none is both bound and free.
-/
import Decombinator.Code
import Decombinator.Fresh
import Decombinator.Lambda

namespace Decombinator.Lambda

/-- The next parameter name that is not in `free`, and the number to go on from. -/
def freshParam (free : List String) (next : Nat) : String × Nat :=
  let k := Fresh.firstFree "x" free next
  (Fresh.numbered "x" k, k + 1)

/-- A function of three fresh parameters. -/
def ternary (free : List String) (next : Nat) (body : Lambda → Lambda → Lambda → Lambda) :
    Lambda × Nat :=
  let x := freshParam free next
  let y := freshParam free x.2
  let z := freshParam free y.2
  (fn x.1 (fn y.1 (fn z.1 (body (sym x.1) (sym y.1) (sym z.1)))), z.2)

/-- The function that a primitive stands for, if it is a combinator, and otherwise the
primitive itself. -/
def ofPrim (free : List String) (next : Nat) : Prim → Lambda × Nat
  | .i =>
    let x := freshParam free next
    (fn x.1 (sym x.1), x.2)
  | .b => ternary free next fun x y z => ap x (ap y z)
  | .c => ternary free next fun x y z => ap (ap x z) y
  | .s => ternary free next fun x y z => ap (ap x z) (ap y z)
  | p => (prim p, next)

/-- Replaces the combinators from left to right, numbering parameters from `next` on. -/
def eliminate (free : List String) : Code → Nat → Lambda × Nat
  | .ap f x, next =>
    let f' := eliminate free f next
    let x' := eliminate free x f'.2
    (ap f'.1 x'.1, x'.2)
  | .sym x, next => (sym x, next)
  | .int n, next => (int n, next)
  | .prim p, next => ofPrim free next p

/-- The code with its combinators replaced by functions. -/
def ofCode (c : Code) : Lambda :=
  (eliminate c.symbols c 0).1

end Decombinator.Lambda
