/-
Evaluation of code and of expressions.

The application rules are few.  True applied to two arguments is the first, false is the
second.  Nil applied to anything is true.  A cons cell applied to `f` is `f` applied to
its head and then to its tail.  Primitives and closures do what they say, and integers
cannot be applied.  Arguments are passed suspended and run when they are first needed, so
a branch that is not taken is never evaluated.

Every application counts as one step, before anything else happens in it.  That is the
only thing that is counted, and what the step limit bounds.

The evaluator is recursive in the program's own recursion, which need not end.  Its first
argument bounds the depth; an evaluation that goes deeper is out of fuel.
-/
import Decombinator.Machine.Memory

namespace Decombinator.Machine

open Effect

/-- Suspends the elements of a list. -/
def delayList (env : Env) : List Expr → Effect Value
  | [] => pure .nil
  | e :: es => do
    let tail ← delayList env es
    let head ← delay (.expr e env)
    pure (.cons head (.ready tail))

/-- Suspends the arguments of a call. -/
def delayArgs (env : Env) : List Expr → Effect (List Operand)
  | [] => pure []
  | e :: es => do
    let x ← delay (.expr e env)
    let xs ← delayArgs env es
    pure (x :: xs)

mutual

/-- Applies `f` to `x`. -/
def apply (policy : Policy) : Nat → Operand → Operand → Effect Operand
  | 0, _, _ => outOfFuel
  | fuel + 1, f, x => do
    tick policy
    match ← force policy fuel f with
    | .int _ => fail (.cannotApply .int)
    | .bool true => pure (.ready (.always x))
    | .bool false => pure (.ready .second)
    | .nil => pure (.ready (.bool true))
    | .cons head tail => do
      let g ← apply policy fuel x head
      apply policy fuel g tail
    | .unary g => applyUnary policy fuel g x
    | .binary g => pure (.ready (.binary1 g x))
    | .binary1 g a => applyBinary policy fuel g a x
    | .ternary g => pure (.ready (.ternary1 g x))
    | .ternary1 g a => pure (.ready (.ternary2 g a x))
    | .ternary2 g a b => applyTernary policy fuel g a b x
    | .always y => pure y
    | .second => pure x
    | .closure _ env p [] body => do
      let v ← eval policy fuel body ((p, x) :: env)
      pure (.ready v)
    | .closure label env p (q :: rest) body =>
      pure (.ready (.closure label ((p, x) :: env) q rest body))
    | .probe first => pure (.ready (.probe first))

def applyUnary (policy : Policy) : Nat → Unary → Operand → Effect Operand
  | 0, _, _ => outOfFuel
  | fuel + 1, g, x =>
    match g with
    | .i => pure x
    | .car => do
      match ← force policy fuel x with
      | .cons head _ => pure head
      | v => apply policy fuel (.ready v) (.ready (.bool true))
    | .cdr => do
      match ← force policy fuel x with
      | .cons _ tail => pure tail
      | v => apply policy fuel (.ready v) (.ready (.bool false))
    | .isnil => do
      let v ← force policy fuel x
      let r ← ofExcept (testNil v)
      pure (.ready r)
    | .neg => do
      let v ← force policy fuel x
      let r ← ofExcept (negate v)
      pure (.ready r)

def applyBinary (policy : Policy) : Nat → Binary → Operand → Operand → Effect Operand
  | 0, _, _, _ => outOfFuel
  | fuel + 1, g, x, y =>
    match g.operator? with
    | none => pure (.ready (.cons x y))
    | some op => do
      let a ← force policy fuel x
      let b ← force policy fuel y
      let r ← ofExcept (arith op a b)
      pure (.ready r)

def applyTernary (policy : Policy) : Nat → Ternary → Operand → Operand → Operand → Effect Operand
  | 0, _, _, _, _ => outOfFuel
  | fuel + 1, g, x, y, z =>
    match g with
    | .b => do
      let yz ← delay (.apply y z)
      apply policy fuel x yz
    | .c => do
      let xz ← apply policy fuel x z
      apply policy fuel xz y
    | .s => do
      let yz ← delay (.apply y z)
      let xz ← apply policy fuel x z
      apply policy fuel xz yz

/-- Runs an operand until it is a value.  A suspended computation that has not run is run
and, if outcomes are kept, replaced by its outcome, failures included. -/
def force (policy : Policy) : Nat → Operand → Effect Value
  | 0, _ => outOfFuel
  | fuel + 1, x =>
    match x with
    | .ready v => pure v
    | .delayed addr => do
      match ← load addr with
      | none => outOfFuel
      | some (.done y) => force policy fuel y
      | some (.failed f) => fail f
      | some (.pending s) =>
        match ← attempt (resume policy fuel s) with
        | .ok y => do
          if policy.memo then store addr (.done y)
          force policy fuel y
        | .error f => do
          if policy.memo then store addr (.failed f)
          fail f

/-- Runs a suspended computation. -/
def resume (policy : Policy) : Nat → Suspension → Effect Operand
  | 0, _ => outOfFuel
  | fuel + 1, s =>
    match s with
    | .code c => run policy fuel c
    | .expr e env => do
      let v ← eval policy fuel e env
      pure (.ready v)
    | .apply f x => apply policy fuel f x

/-- Runs code.  The result may still be suspended. -/
def run (policy : Policy) : Nat → Code → Effect Operand
  | 0, _ => outOfFuel
  | fuel + 1, c =>
    match c with
    | .int n => pure (.ready (.int n))
    | .sym x => global x
    | .prim p => pure (.ready (.ofPrim p))
    | .ap f x => do
      let g ← run policy fuel f
      let a ← delay (.code x)
      apply policy fuel g a

/-- Evaluates an expression. -/
def eval (policy : Policy) : Nat → Expr → Env → Effect Value
  | 0, _, _ => outOfFuel
  | fuel + 1, e, env =>
    match e with
    | .int n => pure (.int n)
    | .bool b => pure (.bool b)
    | .prim p => pure (.ofPrim p)
    | .func p ps b => pure (.function env p ps b)
    | .list es => delayList env es
    | .sym x => do
      let v ← lookup env x
      force policy fuel v
    | .neg a => do
      let v ← eval policy fuel a env
      let r ← apply policy fuel (.ready (.unary .neg)) (.ready v)
      force policy fuel r
    | .not a => do
      let b ← truthOf policy fuel a env
      pure (.bool !b)
    | .isNil a => do
      let v ← eval policy fuel a env
      ofExcept (testNil v)
    | .binary .and l r => do
      if ← truthOf policy fuel l env then
        let b ← truthOf policy fuel r env
        pure (.bool b)
      else pure (.bool false)
    | .binary .or l r => do
      if ← truthOf policy fuel l env then pure (.bool true)
      else
        let b ← truthOf policy fuel r env
        pure (.bool b)
    | .binary op l r => do
      let a ← eval policy fuel l env
      let b ← eval policy fuel r env
      ofExcept (arith op a b)
    | .cond test yes no => do
      if ← truthOf policy fuel test env then eval policy fuel yes env
      else eval policy fuel no env
    | .matchList value empty h t b => do
      match ← eval policy fuel value env with
      | .nil => eval policy fuel empty env
      | v => do
        let r ← apply policy fuel (.ready v) (.ready (.function env h [t] b))
        force policy fuel r
    | .letCons h t value b => do
      let v ← eval policy fuel value env
      let r ← apply policy fuel (.ready v) (.ready (.function env h [t] b))
      force policy fuel r
    | .letIn x value b => do
      let v ← delay (.expr value env)
      eval policy fuel b ((x, v) :: env)
    | .call f args => do
      let g ← eval policy fuel f env
      let xs ← delayArgs env args
      let r ← applyAll policy fuel (.ready g) xs
      force policy fuel r

/-- Applies `f` to arguments in turn. -/
def applyAll (policy : Policy) : Nat → Operand → List Operand → Effect Operand
  | 0, _, _ => outOfFuel
  | fuel + 1, f, xs =>
    match xs with
    | [] => pure f
    | x :: xs => do
      let g ← apply policy fuel f x
      applyAll policy fuel g xs

/-- The boolean that a value is.  A function is applied to two probes; it is a boolean if it
returns one of them. -/
def truth (policy : Policy) : Nat → Value → Effect Bool
  | 0, _ => outOfFuel
  | fuel + 1, v =>
    match v with
    | .bool b => pure b
    | v =>
      if v.tag = .function then do
        let g ← apply policy fuel (.ready v) (.ready (.probe true))
        let r ← apply policy fuel g (.ready (.probe false))
        match ← force policy fuel r with
        | .probe first => pure first
        | _ => fail .notBoolean
      else fail (.expectedBoolean v.tag)

def truthOf (policy : Policy) : Nat → Expr → Env → Effect Bool
  | 0, _, _ => outOfFuel
  | fuel + 1, e, env => do
    let v ← eval policy fuel e env
    truth policy fuel v

end

/-! ### Evaluations

An evaluation starts with the step count at zero. -/

def evalCode (policy : Policy) (fuel : Nat) (c : Code) : Effect Value := do
  setSteps 0
  let x ← run policy fuel c
  force policy fuel x

def evalExpr (policy : Policy) (fuel : Nat) (e : Expr) : Effect Value := do
  setSteps 0
  eval policy fuel e []

end Decombinator.Machine
