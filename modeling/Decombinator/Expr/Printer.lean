/-
Printing expressions on one line.

Every form has a priority, lower for what binds tighter.  A subexpression is put in
parentheses only where its priority is above what its position allows: an operand on the
left of an operator may have the operator's own priority, one on the right must bind
tighter, and the function of a call and the operand of a sign must bind like a call.
-/
import Decombinator.Expr
import Decombinator.Text.Integer

namespace Decombinator

namespace BinOp

def priority : BinOp → Nat
  | mul | div | mod => 3
  | add | sub => 4
  | eq | lt => 5
  | and => 6
  | or => 7

end BinOp

namespace Expr

def priority : Expr → Nat
  | int _ | sym _ | bool _ | prim _ | list _ => 0
  | neg _ | not _ | isNil _ | call _ _ => 1
  | func _ _ _ => 2
  | binary op _ _ => op.priority
  | cond _ _ _ => 8
  | matchList _ _ _ _ _ | letCons _ _ _ _ | letIn _ _ _ => 9

/-- How a primitive is written in an expression: comparisons as signs. -/
def primText : Prim → String
  | .eq => "=="
  | .lt => "<"
  | p => p.spelling

/-- The text of `e` for a position that allows priorities up to `limit`. -/
def within (limit : Nat) (e : Expr) (text : String) : String :=
  if e.priority > limit then "(" ++ text ++ ")" else text

mutual

def print : Expr → String
  | int n => Text.int64Text n
  | sym x => x
  | bool true => "true"
  | bool false => "false"
  | prim p => primText p
  | list xs => "[" ++ String.intercalate ", " (printAll xs) ++ "]"
  | neg a => "-" ++ within 1 a (print a)
  | not a => "!" ++ within 1 a (print a)
  | isNil a => "isnil(" ++ print a ++ ")"
  | binary op a b =>
    within op.priority a (print a) ++ " " ++ op.spelling ++ " " ++
      within (op.priority - 1) b (print b)
  | cond a b c => "if " ++ print a ++ " \x7b " ++ print b ++ " \x7d else \x7b " ++ print c ++ " \x7d"
  | matchList v e h t b =>
    "match " ++ print v ++ " \x7b [] => " ++ print e ++ ", " ++ h ++ "::" ++ t ++ " => " ++
      print b ++ " \x7d"
  | letCons h t v b => "let " ++ h ++ "::" ++ t ++ " = " ++ print v ++ " in " ++ print b
  | letIn x v b => "let " ++ x ++ " = " ++ print v ++ " in " ++ print b
  | call f xs => within 1 f (print f) ++ "(" ++ String.intercalate ", " (printAll xs) ++ ")"
  | func p ps b => "fun(" ++ String.intercalate ", " (p :: ps) ++ ") -> " ++ print b

def printAll : List Expr → List String
  | [] => []
  | e :: es => print e :: printAll es

end

end Expr

end Decombinator
