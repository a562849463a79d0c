/-
The stages of a definition, from code to readable expression.

    code → lambda term → shrunk → folded → idioms → tidied → renamed

Only reading can fail.  Once there is a definition every stage is a function, and all of
them are kept, since tracing shows them and verifying runs some of them again.
-/
import Decombinator.Code.Parser
import Decombinator.Expr.Algebra
import Decombinator.Expr.Idioms
import Decombinator.Expr.Printer
import Decombinator.Expr.Renaming
import Decombinator.Folded
import Decombinator.Lambda.Elimination
import Decombinator.Lambda.Shrink

namespace Decombinator

structure Stages where
  definition : Definition
  /-- The readable name of the definition. -/
  name : String
  lambda : Lambda
  shrunk : Lambda
  folded : Folded
  idioms : Expr
  tidied : Expr
  renamed : Expr

namespace Stages

def ofDefinition (dict : Dictionary) (d : Definition) : Stages :=
  let lambda := Lambda.ofCode d.value
  let shrunk := lambda.shrink
  let folded := Folded.ofLambda shrunk
  let idioms := Expr.ofFolded dict folded
  let tidied := idioms.tidy
  { definition := d, name := dict.nameOf d.name, lambda, shrunk, folded, idioms, tidied
    renamed := tidied.rename dict }

/-- The stages of a line of source. -/
def ofLine (dict : Dictionary) (line : String) : Except ParseError Stages :=
  match Definition.parse .batch line with
  | .ok d => .ok (ofDefinition dict d)
  | .error e => .error e

/-- The readable definition. -/
def print (s : Stages) : String :=
  s.name ++ " = " ++ s.renamed.print

/-- What tracing shows of a definition. -/
def trace (s : Stages) : String :=
  "Parsed: " ++ s.definition.print ++ "\n" ++
  "Lambdified: " ++ s.lambda.print ++ "\n" ++
  "Evaluated: " ++ s.shrunk.print ++ "\n" ++
  "Simplified: " ++ s.folded.print ++ "\n" ++
  "Expr1 = " ++ s.idioms.print ++ "\n" ++
  "Expr2 = " ++ s.tidied.print ++ "\n"

/-! ### Verification -/

/-- The stages that must not change their own results, and whether they do not. -/
def checks (dict : Dictionary) (s : Stages) : List (String × Bool) :=
  [("evaluator idempotent", s.shrunk.shrink = s.shrunk),
    ("simplifier idempotent", s.tidied.tidy.equal s.tidied),
    ("renamer deterministic", (s.tidied.rename dict).print == s.renamed.print)]

def report (dict : Dictionary) (s : Stages) : String :=
  String.join <| (s.checks dict).map fun (stage, ok) =>
    "[verify] " ++ s.definition.name ++ " " ++ stage ++ ": " ++
      (if ok then "ok" else "FAILED") ++ "\n"

/-- The checks that failed, if any did. -/
def violation? (dict : Dictionary) (s : Stages) : Option String :=
  let failed := ((s.checks dict).filter fun c => !c.2).map Prod.fst
  if failed.isEmpty then none
  else some (s.definition.name ++ ": invariant violated: [" ++ String.intercalate " " failed ++ "]")

end Stages

end Decombinator
