/-
Recovering conditionals, connectives and bindings from folded terms.

Recognition goes by shape alone.  It works from the inside out: the function and the
argument of an application are read first, and what they turned into decides what the
application is.  A shape that is no idiom becomes a plain call or function.

Two kinds of knowledge steer it.  The dictionary declares the types of some references.
And a symbol that was tested for being an empty list is a list from then on, so that
applying it to a function of two parameters takes it apart; these symbols are collected
on the way, in the order in which the term is read.
-/
import Decombinator.Dictionary
import Decombinator.Expr
import Decombinator.Folded

namespace Decombinator.Expr

/-! ### What is known about symbols -/

/-- The type of a symbol: a list if it is known to be one, and else what is declared. -/
def signatureOf (dict : Dictionary) (lists : List String) (x : String) : Option Signature :=
  if x ∈ lists then some .list else dict.signature? x

def kindOf (dict : Dictionary) (lists : List String) (x : String) : Kind :=
  match signatureOf dict lists x with
  | some sig => sig.kind
  | none => .unknown

/-- The expressions that are certainly booleans. -/
def isBoolean (dict : Dictionary) (lists : List String) : Expr → Bool
  | bool _ | not _ | isNil _ => true
  | binary op _ _ =>
    match op with
    | .eq | .lt | .and | .or => true
    | _ => false
  | sym x => kindOf dict lists x = .bool
  | _ => false

/-! ### Functions -/

/-- A function of one more parameter.  One that swaps the branches of a conditional, on a
test that does not depend on them, is the negation of the test. -/
def abstract (p : String) : Expr → Expr
  | func q rest body =>
    match rest, body with
    | [], cond test (sym yes) (sym no) =>
      if yes = q ∧ no = p ∧ !test.mentions p ∧ !test.mentions q then not test
      else func p [q] body
    | _, _ => func p (q :: rest) body
  | body => func p [] body

/-- The first parameter of a function under any number of lets, and what is left when the
parameter is taken away. -/
def takeParam : Expr → Option (String × Expr)
  | letIn x v b => (takeParam b).map fun (p, b') => (p, letIn x v b')
  | func p [] b => some (p, b)
  | func p (q :: rest) b => some (p, func q rest b)
  | _ => none

/-! ### Applications -/

/-- The body of `let v = l in v(v)`, which applied to `r` is `l || r`. -/
def isOrBody (v : String) : Expr → Bool
  | call (sym f) [sym x] => f == v && x == v
  | _ => false

/-- The body of `let v = l in fun(p) -> v(p, v)` or `let v = l in fun(p) -> p(v, p)`, which
applied to `r` is `l && r`.  Anything but a symbol counts as the empty name here. -/
def isAndBody (v : String) : Expr → Bool
  | func p [] (call f [x, y]) =>
    let names := [f, x, y].map fun e => e.symName?.getD ""
    names == [v, p, v] || names == [p, v, p]
  | _ => false

/-- The operator that a primitive applied to two arguments is. -/
def operatorOf? : Expr → Option BinOp
  | prim .add => some .add
  | prim .mul => some .mul
  | prim .div => some .div
  | prim .eq => some .eq
  | prim .lt => some .lt
  | _ => none

/-- Whether a symbol is declared as a function that returns a boolean after `n` arguments. -/
def isPredicate (dict : Dictionary) (lists : List String) (n : Int) : Expr → Bool
  | sym x =>
    match signatureOf dict lists x with
    | some (.func arity .bool) => arity == n
    | _ => false
  | _ => false

/-- A call with one more argument.  A boolean applied to two arguments chooses one of
them. -/
def extendCall (dict : Dictionary) (lists : List String) (f : Expr) (args : List Expr)
    (x : Expr) : Expr :=
  match args with
  | [a] =>
    if isBoolean dict lists f then cond f a x
    else
      match operatorOf? f with
      | some op => binary op a x
      | none => call f [a, x]
  | _ =>
    match args.getLast? with
    | some a =>
      if isPredicate dict lists (args.length - 1) f then cond (call f args.dropLast) a x
      else call f (args ++ [x])
    | none => call f [x]

/-- An application with nothing special about it: a function takes its first parameter by a
let, anything else is called. -/
def bindOrCall (f x : Expr) : Expr :=
  match takeParam f with
  | some (p, b) => letIn p x b
  | none => call f [x]

/-- A list applied to a function of two or more parameters, taken apart. -/
def destructure (f : Expr) : Expr → Expr
  | func h (t :: rest) b =>
    match rest with
    | [] => letCons h t f b
    | p :: ps => letCons h t f (func p ps b)
  | x => call f [x]

/-- What the application of `f` to `x` is.  `before` and `after` are the symbols known to be
lists before and after the argument was read; the result may know one more. -/
def applyTo (dict : Dictionary) (before after : List String) (f x : Expr) :
    Expr × List String :=
  match f with
  | prim .neg => (neg x, after)
  | prim .isnil =>
    match x with
    | sym y => (isNil x, y :: after)
    | _ => (isNil x, after)
  | sym g => (if kindOf dict before g = .list then destructure f x else call f [x], after)
  | letIn v l body =>
    if isOrBody v body then (binary .or l x, after)
    else if isAndBody v body then (binary .and l x, after)
    else (bindOrCall f x, after)
  | call g args => (extendCall dict after g args x, after)
  | _ => (bindOrCall f x, after)

/-! ### Terms -/

mutual

/-- Reads a folded term, given the symbols that are known to be lists, and adds to them. -/
def recognise (dict : Dictionary) : Folded → List String → Expr × List String
  | .sym x, lists => (sym x, lists)
  | .int n, lists => (int n, lists)
  | .falsity, lists => (bool false, lists)
  | .prim p, lists => (if p = .t then bool true else prim p, lists)
  | .list items, lists =>
    let r := recogniseAll dict items lists
    (list r.1, r.2)
  | .fn p body, lists =>
    let r := recognise dict body lists
    (abstract p r.1, r.2)
  | .ap f x, lists =>
    let f' := recognise dict f lists
    let x' := recognise dict x f'.2
    applyTo dict f'.2 x'.2 f'.1 x'.1

def recogniseAll (dict : Dictionary) : List Folded → List String → List Expr × List String
  | [], lists => ([], lists)
  | t :: ts, lists =>
    let t' := recognise dict t lists
    let ts' := recogniseAll dict ts t'.2
    (t'.1 :: ts'.1, ts'.2)

end

/-- The expression that a folded term is. -/
def ofFolded (dict : Dictionary) (t : Folded) : Expr :=
  (recognise dict t []).1

end Decombinator.Expr
