/-
Shrinking a lambda term without duplicating work.

A round has two passes.

* Inlining reduces a redex whose parameter is used exactly once in the whole term, and
  puts the argument at that use.
* Relabelling reduces a redex whose argument is a symbol or an integer, however often
  the parameter is used, and follows symbols that stand for symbols to the end.

A round may put a function into head position and so make a new redex, so rounds are
repeated until one changes nothing.

Both passes walk a function's body again after the argument is bound, so neither is a
recursion on the term.  What bounds them is the size of the term together with the
sizes of the bindings that are still waiting to be used, which never grows; a round
that changes the term makes it smaller.  The fuel below is that size, so it lasts.
-/
import Decombinator.Lambda

namespace Decombinator.Lambda

/-- Names and the terms that stand for them, the newest first. -/
abbrev Bindings := List (String × Lambda)

namespace Bindings

/-- The bindings without those of `x`. -/
def drop (x : String) (env : Bindings) : Bindings :=
  env.filter (·.1 != x)

/-- The bindings with `x` standing for `t` and nothing else. -/
def put (x : String) (t : Lambda) (env : Bindings) : Bindings :=
  (x, t) :: drop x env

end Bindings

/-! ### Inlining -/

/-- Reduces redexes whose parameter is `linear`.  A binding is used up where its name
occurs; one that was not used is dropped with its redex.  The result is the new term and
the bindings that are left. -/
def inline (linear : String → Bool) : Nat → Bindings → Lambda → Lambda × Bindings
  | 0, env, t => (t, env)
  | fuel + 1, env, fn p body =>
    let body' := inline linear fuel env body
    (fn p body'.1, body'.2)
  | fuel + 1, env, ap f x =>
    let f' := inline linear fuel env f
    let x' := inline linear fuel f'.2 x
    match f'.1 with
    | fn p body =>
      if linear p then
        let body' := inline linear fuel (Bindings.put p x'.1 x'.2) body
        (body'.1, Bindings.drop p body'.2)
      else (ap (fn p body) x'.1, x'.2)
    | g => (ap g x'.1, x'.2)
  | _ + 1, env, sym x =>
    match env.lookup x with
    | some t => (t, Bindings.drop x env)
    | none => (sym x, env)
  | _ + 1, env, int n => (int n, env)
  | _ + 1, env, prim p => (prim p, env)

/-! ### Relabelling -/

/-- Follows a symbol to the first thing that is not bound, is not a symbol, or stands for
itself.  Chains never loop, so as many steps as there are bindings are enough. -/
def chase (env : Bindings) : Nat → Lambda → Lambda
  | 0, t => t
  | fuel + 1, sym x =>
    match env.lookup x with
    | some t => if t = sym x then t else chase env fuel t
    | none => sym x
  | _ + 1, t => t

/-- Reduces redexes whose argument is an atom. -/
def relabel : Nat → Bindings → Lambda → Lambda
  | 0, _, t => t
  | fuel + 1, env, fn p body => fn p (relabel fuel env body)
  | fuel + 1, env, ap f x =>
    let x' := relabel fuel env x
    match relabel fuel env f with
    | fn p body => if x'.isAtom then relabel fuel ((p, x') :: env) body else ap (fn p body) x'
    | g => ap g x'
  | _ + 1, env, sym x => chase env env.length (sym x)
  | _ + 1, _, int n => int n
  | _ + 1, _, prim p => prim p

/-! ### Rounds -/

/-- Inlining with the uses of the whole term counted. -/
def inlined (t : Lambda) : Lambda :=
  (inline (fun p => t.count p == 1) t.size [] t).1

def relabelled (t : Lambda) : Lambda :=
  relabel t.size [] t

def round (t : Lambda) : Lambda :=
  relabelled (inlined t)

/-- Repeats rounds until one changes nothing. -/
def settle : Nat → Lambda → Lambda
  | 0, t => t
  | fuel + 1, t => if round t = t then t else settle fuel (round t)

/-- The term with every redex reduced that can be reduced without copying anything but
atoms. -/
def shrink (t : Lambda) : Lambda :=
  settle t.size t

end Decombinator.Lambda
