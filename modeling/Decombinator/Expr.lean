/-
Expressions: the readable form of a definition.

Besides integers, symbols, primitives and calls there are conditionals, connectives,
list literals and the binding forms.  A function has at least one parameter, which the
type says by keeping the first apart from the rest.  A call may have any number of
arguments.

The names in binding positions are those of function parameters and of the three binding
forms.  Every other name is a symbol, bound or not.
-/
import Decombinator.Prim

namespace Decombinator

inductive BinOp
  | add | sub | mul | div | mod | eq | lt | and | or
  deriving DecidableEq

namespace BinOp

def spelling : BinOp → String
  | add => "+"
  | sub => "-"
  | mul => "*"
  | div => "/"
  | mod => "%"
  | eq => "=="
  | lt => "<"
  | and => "&&"
  | or => "||"

end BinOp

inductive Expr
  | int (n : Int64)
  | sym (x : String)
  | bool (b : Bool)
  | prim (p : Prim)
  | list (items : List Expr)
  | neg (e : Expr)
  | not (e : Expr)
  | isNil (e : Expr)
  | binary (op : BinOp) (l r : Expr)
  | cond (test yes no : Expr)
  /-- Takes a list apart: `empty` if it has no elements, and otherwise `body` with names
  for its head and tail. -/
  | matchList (value empty : Expr) (head tail : String) (body : Expr)
  /-- Names the head and tail of a list. -/
  | letCons (head tail : String) (value body : Expr)
  | letIn (x : String) (value body : Expr)
  | call (f : Expr) (args : List Expr)
  | func (param : String) (rest : List String) (body : Expr)

namespace Expr

/-! ### Equality -/

mutual

/-- Whether two expressions are the same tree. -/
def equal : Expr → Expr → Bool
  | int m, int n => m == n
  | sym x, sym y => x == y
  | bool a, bool b => a == b
  | prim p, prim q => p == q
  | list xs, list ys => equalAll xs ys
  | neg a, neg b => equal a b
  | not a, not b => equal a b
  | isNil a, isNil b => equal a b
  | binary o a b, binary o' a' b' => o == o' && equal a a' && equal b b'
  | cond a b c, cond a' b' c' => equal a a' && equal b b' && equal c c'
  | matchList v e h t b, matchList v' e' h' t' b' =>
    h == h' && t == t' && equal v v' && equal e e' && equal b b'
  | letCons h t v b, letCons h' t' v' b' => h == h' && t == t' && equal v v' && equal b b'
  | letIn x v b, letIn x' v' b' => x == x' && equal v v' && equal b b'
  | call f xs, call f' xs' => equal f f' && equalAll xs xs'
  | func p ps b, func p' ps' b' => p == p' && ps == ps' && equal b b'
  | _, _ => false

def equalAll : List Expr → List Expr → Bool
  | [], [] => true
  | x :: xs, y :: ys => equal x y && equalAll xs ys
  | _, _ => false

end

/-! ### Subexpressions -/

/-- A node and, if it is entered, the nodes below it. -/
def visit (enter : Expr → Bool) (e : Expr) (below : List Expr) : List Expr :=
  e :: if enter e then below else []

mutual

/-- The subexpressions in the order in which they are printed, leaving out those below a
node that is not to be entered. -/
def walk (enter : Expr → Bool) : Expr → List Expr
  | int n => visit enter (int n) []
  | sym x => visit enter (sym x) []
  | bool b => visit enter (bool b) []
  | prim p => visit enter (prim p) []
  | list xs => visit enter (list xs) (walkAll enter xs)
  | neg a => visit enter (neg a) (walk enter a)
  | not a => visit enter (not a) (walk enter a)
  | isNil a => visit enter (isNil a) (walk enter a)
  | binary o a b => visit enter (binary o a b) (walk enter a ++ walk enter b)
  | cond a b c => visit enter (cond a b c) (walk enter a ++ walk enter b ++ walk enter c)
  | matchList v e h t b =>
    visit enter (matchList v e h t b) (walk enter v ++ walk enter e ++ walk enter b)
  | letCons h t v b => visit enter (letCons h t v b) (walk enter v ++ walk enter b)
  | letIn x v b => visit enter (letIn x v b) (walk enter v ++ walk enter b)
  | call f xs => visit enter (call f xs) (walk enter f ++ walkAll enter xs)
  | func p ps b => visit enter (func p ps b) (walk enter b)

def walkAll (enter : Expr → Bool) : List Expr → List Expr
  | [] => []
  | e :: es => walk enter e ++ walkAll enter es

end

/-- Every subexpression, the expression itself first. -/
def nodes (e : Expr) : List Expr :=
  e.walk fun _ => true

/-- The name of a symbol. -/
def symName? : Expr → Option String
  | sym x => some x
  | _ => none

/-- The names that a node binds in its own right. -/
def ownBinders : Expr → List String
  | func p ps _ => p :: ps
  | letIn x _ _ => [x]
  | letCons h t _ _ => [h, t]
  | matchList _ _ h t _ => [h, t]
  | _ => []

/-- The names of all symbols, from left to right. -/
def symbols (e : Expr) : List String :=
  e.nodes.filterMap symName?

/-- The names in all binding positions. -/
def binders (e : Expr) : List String :=
  e.nodes.flatMap ownBinders

/-- Whether a name occurs as a symbol.  Binding positions do not count. -/
def mentions (e : Expr) (x : String) : Bool :=
  e.symbols.contains x

end Expr

end Decombinator
