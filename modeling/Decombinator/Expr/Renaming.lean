/-
Renaming binders and references.

Names that are bound somewhere in the expression become `_x0`, `_x1` and so on, in the
order in which they are met, binding positions and symbols alike; the same name becomes
the same new name everywhere.  All other names are references and become their readable
names, if the dictionary has one.  The numbers of new names pass over the names that
references end up with, so the two never meet.
-/
import Decombinator.Dictionary
import Decombinator.Expr
import Decombinator.Fresh

namespace Decombinator.Expr

/-- What a renaming is told about the expression as a whole. -/
structure Scope where
  dict : Dictionary
  /-- The names that are bound somewhere. -/
  bound : List String
  /-- The names that references end up with. -/
  reserved : List String

def Scope.of (dict : Dictionary) (e : Expr) : Scope :=
  let bound := e.binders
  { dict, bound, reserved := (e.symbols.filter fun x => !bound.contains x).map dict.nameOf }

/-- The new names given so far, and the number to go on from. -/
structure Renaming where
  given : List (String × String) := []
  next : Nat := 0

/-- The new name of `x`. -/
def Scope.rename (scope : Scope) (x : String) (r : Renaming) : String × Renaming :=
  if x ∈ scope.bound then
    match r.given.lookup x with
    | some y => (y, r)
    | none =>
      let k := Fresh.firstFree "_x" scope.reserved r.next
      let y := Fresh.numbered "_x" k
      (y, { given := (x, y) :: r.given, next := k + 1 })
  else (scope.dict.nameOf x, r)

def Scope.renameAll (scope : Scope) : List String → Renaming → List String × Renaming
  | [], r => ([], r)
  | x :: xs, r =>
    let x' := scope.rename x r
    let xs' := scope.renameAll xs x'.2
    (x'.1 :: xs'.1, xs'.2)

mutual

/-- Renames from left to right.  The names of a let come before its value, those of a match
after its first branch. -/
def renameIn (scope : Scope) : Expr → Renaming → Expr × Renaming
  | int n, r => (int n, r)
  | sym x, r =>
    let x' := scope.rename x r
    (sym x'.1, x'.2)
  | bool b, r => (bool b, r)
  | prim p, r => (prim p, r)
  | list xs, r =>
    let xs' := renameAllIn scope xs r
    (list xs'.1, xs'.2)
  | neg a, r =>
    let a' := renameIn scope a r
    (neg a'.1, a'.2)
  | not a, r =>
    let a' := renameIn scope a r
    (not a'.1, a'.2)
  | isNil a, r =>
    let a' := renameIn scope a r
    (isNil a'.1, a'.2)
  | binary op a b, r =>
    let a' := renameIn scope a r
    let b' := renameIn scope b a'.2
    (binary op a'.1 b'.1, b'.2)
  | cond a b c, r =>
    let a' := renameIn scope a r
    let b' := renameIn scope b a'.2
    let c' := renameIn scope c b'.2
    (cond a'.1 b'.1 c'.1, c'.2)
  | matchList v e h t b, r =>
    let v' := renameIn scope v r
    let e' := renameIn scope e v'.2
    let h' := scope.rename h e'.2
    let t' := scope.rename t h'.2
    let b' := renameIn scope b t'.2
    (matchList v'.1 e'.1 h'.1 t'.1 b'.1, b'.2)
  | letCons h t v b, r =>
    let h' := scope.rename h r
    let t' := scope.rename t h'.2
    let v' := renameIn scope v t'.2
    let b' := renameIn scope b v'.2
    (letCons h'.1 t'.1 v'.1 b'.1, b'.2)
  | letIn x v b, r =>
    let x' := scope.rename x r
    let v' := renameIn scope v x'.2
    let b' := renameIn scope b v'.2
    (letIn x'.1 v'.1 b'.1, b'.2)
  | call f xs, r =>
    let f' := renameIn scope f r
    let xs' := renameAllIn scope xs f'.2
    (call f'.1 xs'.1, xs'.2)
  | func p ps b, r =>
    let p' := scope.rename p r
    let ps' := scope.renameAll ps p'.2
    let b' := renameIn scope b ps'.2
    (func p'.1 ps'.1 b'.1, b'.2)

def renameAllIn (scope : Scope) : List Expr → Renaming → List Expr × Renaming
  | [], r => ([], r)
  | e :: es, r =>
    let e' := renameIn scope e r
    let es' := renameAllIn scope es e'.2
    (e'.1 :: es'.1, es'.2)

end

/-- The expression with fresh binders and readable references. -/
def rename (dict : Dictionary) (e : Expr) : Expr :=
  (renameIn (Scope.of dict e) e {}).1

end Decombinator.Expr
