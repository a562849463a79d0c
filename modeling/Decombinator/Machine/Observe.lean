/-
Showing values.

Lists show their elements in brackets, and after a bar what they end in, if that is not
nil.  The spine of a list is run to its end before any element, so a tail that fails hides
the whole list; an element that fails is shown in its place.  Functions that select like a
boolean are shown as that boolean.  The steps of finding that out do not count, but what
they did to the memory stays.
-/
import Decombinator.Machine.Eval

namespace Decombinator.Machine

open Effect

def failureText (f : Fault) : String :=
  "<error: " ++ f.text ++ ">"

def boolText (b : Bool) : String :=
  if b then "true" else "false"

/-- The elements of a list, and the value that it ends in. -/
def spine (policy : Policy) : Nat → Operand → Effect (List Operand × Value)
  | 0, _ => outOfFuel
  | fuel + 1, x => do
    match ← force policy fuel x with
    | .cons head tail => do
      let (items, last) ← spine policy fuel tail
      pure (head :: items, last)
    | v => pure ([], v)

/-- The boolean that a function is, if it is one, at no cost in steps. -/
def probeBool (policy : Policy) (fuel : Nat) (v : Value) : Effect (Option Bool) := do
  let steps ← getSteps
  let r ← attempt (truth policy fuel v)
  setSteps steps
  match r with
  | .ok b => pure (some b)
  | .error _ => pure none

/-- The text of a value that is no list. -/
def showPlain (policy : Policy) (fuel : Nat) (v : Value) : Effect String :=
  match v with
  | .int n => pure (Text.int64Text n)
  | .bool b => pure (boolText b)
  | .nil => pure "[]"
  | .probe _ => pure "<probe>"
  | v => do
    match ← probeBool policy fuel v with
    | some b => pure (boolText b)
    | none => pure ("<" ++ v.label ++ ">")

mutual

/-- The text of an operand, running what it takes. -/
def observe (policy : Policy) : Nat → Operand → Effect String
  | 0, _ => outOfFuel
  | fuel + 1, x => do
    match ← attempt (spine policy fuel x) with
    | .error f => pure (failureText f)
    | .ok ([], v) => showPlain policy fuel v
    | .ok (items, .nil) => do
      let texts ← observeAll policy fuel items
      pure ("[" ++ String.intercalate ", " texts ++ "]")
    | .ok (items, last) => do
      let texts ← observeAll policy fuel items
      let rest ← showPlain policy fuel last
      pure ("[" ++ String.intercalate ", " texts ++ " | " ++ rest ++ "]")

def observeAll (policy : Policy) : Nat → List Operand → Effect (List String)
  | 0, _ => outOfFuel
  | fuel + 1, xs =>
    match xs with
    | [] => pure []
    | x :: xs => do
      let text ← observe policy fuel x
      let texts ← observeAll policy fuel xs
      pure (text :: texts)

end

end Decombinator.Machine
