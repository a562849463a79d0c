/-
Tidying arithmetic and list matching.

From the inside out:

    -(literal)                                → the negative literal
    a + -(b * (a / b))                        → a % b
    a + -b,  a + (negative literal)           → a - b,  a - literal
    -a + b,  (negative literal) + b           → b - a,  b - literal
    if isnil(x) ... else let h::t = x in ...  → match x ...

Everything else keeps its shape.  None of the results can be tidied again.
-/
import Decombinator.Expr

namespace Decombinator.Expr

/-- The `b` of `b * (a / b)`. -/
def multipleOfQuotient? (a : Expr) : Expr → Option Expr
  | binary .mul b (binary .div a' b') => if equal a' a && equal b' b then some b else none
  | _ => none

/-- The right operand of a sum as something to subtract. -/
def negated? : Expr → Option Expr
  | neg b => some b
  | int n => if n < 0 then some (int (-n)) else none
  | _ => none

/-- The sum of two tidy expressions. -/
def sum (l r : Expr) : Expr :=
  match r with
  | neg b =>
    match multipleOfQuotient? l b with
    | some d => binary .mod l d
    | none => binary .sub l b
  | _ =>
    match negated? r with
    | some b => binary .sub l b
    | none =>
      match negated? l with
      | some a => binary .sub r a
      | none => binary .add l r

def negation : Expr → Expr
  | int n => int (-n)
  | e => neg e

def operation (op : BinOp) (l r : Expr) : Expr :=
  match op with
  | .add => sum l r
  | _ => binary op l r

/-- A conditional, as a match if it takes the list that it tested apart. -/
def conditional (test yes no : Expr) : Expr :=
  match test, no with
  | isNil x, letCons h t v b => if equal x v then matchList x yes h t b else cond test yes no
  | _, _ => cond test yes no

mutual

def tidy : Expr → Expr
  | int n => int n
  | sym x => sym x
  | bool b => bool b
  | prim p => prim p
  | list xs => list (tidyAll xs)
  | neg a => negation (tidy a)
  | not a => not (tidy a)
  | isNil a => isNil (tidy a)
  | binary op a b => operation op (tidy a) (tidy b)
  | cond a b c => conditional (tidy a) (tidy b) (tidy c)
  | matchList v e h t b => matchList (tidy v) (tidy e) h t (tidy b)
  | letCons h t v b => letCons h t (tidy v) (tidy b)
  | letIn x v b => letIn x (tidy v) (tidy b)
  | call f xs => call (tidy f) (tidyAll xs)
  | func p ps b => func p ps (tidy b)

def tidyAll : List Expr → List Expr
  | [] => []
  | e :: es => tidy e :: tidyAll es

end

end Decombinator.Expr
