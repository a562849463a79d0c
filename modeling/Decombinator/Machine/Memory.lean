/-
The memory of the lazy machine, and computations on it.

Memory holds the suspended computations, which are only ever added and then replaced by
their outcomes; the global names; and the number of steps taken so far.

A computation takes a memory and has one of three outcomes.  It returns a value or it
fails, in both cases with the memory as it then is; or it runs out of fuel, which says
nothing about the program, only that the evaluator was not allowed to go deep enough.
-/
import Decombinator.Machine.Value

namespace Decombinator.Machine

/-- A computation that waits to be needed. -/
inductive Suspension
  | code (c : Code)
  | expr (e : Expr) (env : Env)
  | apply (f x : Operand)

/-- What an address holds.  An outcome may itself be suspended. -/
inductive Cell
  | pending (s : Suspension)
  | done (x : Operand)
  | failed (f : Fault)

structure Memory where
  cells : Array Cell := #[]
  globals : Env := []
  steps : Nat := 0

namespace Memory

/-- The memory with a global name defined, hiding an earlier definition. -/
def define (m : Memory) (x : String) (v : Operand) : Memory :=
  { m with globals := (x, v) :: m.globals }

end Memory

/-- The terms on which a program runs. -/
structure Policy where
  /-- The number of steps after which an evaluation fails. -/
  limit : Option Nat := some 1000000
  /-- Whether a suspended computation keeps its first outcome. -/
  memo : Bool := true

/-- The limit that a number of steps stands for: none, unless it is positive. -/
def Policy.limitOf (steps : Int) : Option Nat :=
  if steps ≤ 0 then none else some steps.toNat

inductive Outcome (α : Type)
  | value (a : α) (m : Memory)
  | fault (f : Fault) (m : Memory)
  | outOfFuel

def Effect (α : Type) := Memory → Outcome α

namespace Effect

variable {α β : Type}

@[inline] protected def pure (a : α) : Effect α :=
  fun m => .value a m

@[inline] protected def bind (x : Effect α) (k : α → Effect β) : Effect β := fun m =>
  match x m with
  | .value a m' => k a m'
  | .fault f m' => .fault f m'
  | .outOfFuel => .outOfFuel

@[inline] instance : Monad Effect where
  pure := Effect.pure
  bind := Effect.bind

@[inline] def fail (f : Fault) : Effect α :=
  fun m => .fault f m

@[inline] def outOfFuel : Effect α :=
  fun _ => .outOfFuel

@[inline] def ofExcept : Except Fault α → Effect α
  | .ok a => Effect.pure a
  | .error f => fail f

/-- Turns a failure into a value, keeping what it did to the memory. -/
@[inline] def attempt (x : Effect α) : Effect (Except Fault α) := fun m =>
  match x m with
  | .value a m' => .value (.ok a) m'
  | .fault f m' => .value (.error f) m'
  | .outOfFuel => .outOfFuel

/-- Suspends a computation. -/
@[inline] def delay (s : Suspension) : Effect Operand := fun m =>
  .value (.delayed m.cells.size) { m with cells := m.cells.push (.pending s) }

@[inline] def load (addr : Nat) : Effect (Option Cell) := fun m =>
  .value m.cells[addr]? m

@[inline] def store (addr : Nat) (c : Cell) : Effect Unit := fun m =>
  .value () { m with cells := m.cells.setIfInBounds addr c }

/-- What a global name stands for at this moment. -/
@[inline] def global (x : String) : Effect Operand := fun m =>
  match m.globals.lookup x with
  | some v => .value v m
  | none => .fault (.unbound x) m

/-- What a name stands for: the innermost local one, and else the global one. -/
@[inline] def lookup (env : Env) (x : String) : Effect Operand :=
  match env.lookup x with
  | some v => Effect.pure v
  | none => global x

/-- Counts one step, and fails if that is more than the limit allows. -/
@[inline] def tick (policy : Policy) : Effect Unit := fun m =>
  let m' := { m with steps := m.steps + 1 }
  match policy.limit with
  | some limit => if m'.steps > limit then .fault (.stepLimit limit) m' else .value () m'
  | none => .value () m'

@[inline] def setSteps (n : Nat) : Effect Unit := fun m =>
  .value () { m with steps := n }

@[inline] def getSteps : Effect Nat := fun m =>
  .value m.steps m

@[inline] def define (x : String) (v : Operand) : Effect Unit := fun m =>
  .value () (m.define x v)

end Effect

end Decombinator.Machine
