import Decombinator.Completion
import Decombinator.Files.Tree
import Decombinator.Main
import Decombinator.Proofs.Fresh
import Decombinator.Proofs.Lambda.Contraction
import Decombinator.Proofs.Lambda.Rounds
import Decombinator.Proofs.Lambda.Shrink
import Decombinator.Proofs.Lambda.Beta
import Decombinator.Proofs.Folded
import Decombinator.Proofs.Lambda.Elimination
import Decombinator.Proofs.Expr.Idioms
import Decombinator.Proofs.Expr.Algebra
import Decombinator.Proofs.Expr.Renaming
import Decombinator.Proofs.Stages
import Decombinator.Proofs.ByName.Memory
import Decombinator.Proofs.ByName.Machine
import Decombinator.Proofs.ByName.Observe
import Decombinator.Proofs.Meaning.Relation
import Decombinator.Proofs.Meaning.Congruence
import Decombinator.Proofs.Meaning.Terms
import Decombinator.Proofs.Meaning.Algebra
import Decombinator.Proofs.Expr.Connectives
import Decombinator.Proofs.Meaning.Idioms
import Decombinator.Proofs.Expr.Recognition
import Decombinator.Proofs.Meaning.Stages
import Decombinator.Proofs.Folded.Beta
import Decombinator.Proofs.Folded.Facts
import Decombinator.Proofs.Expr.Desugaring
import Decombinator.Proofs.Locality
import Decombinator.Proofs.Text.Words
import Decombinator.Proofs.Code.Grammar
import Decombinator.Proofs.Code.Viable
import Decombinator.Proofs.Code.RoundTrip
import Decombinator.Proofs.Meaning.Combinators
import Decombinator.Proofs.Meaning.Expansion
import Decombinator.Proofs.Machine.Definitions
import Decombinator.Proofs.Text.Lowercase
import Decombinator.Proofs.Session
import Decombinator.Proofs.Session.References
import Decombinator.Proofs.Listing
import Decombinator.Proofs.Expr.NormalForm
import Decombinator.Proofs.Meaning.Arithmetic
import Decombinator.Proofs.Expr.Nameless
import Decombinator.Proofs.Expr.Canonical
import Decombinator.Proofs.Expr.Distinction
import Decombinator.Proofs.Folded.Unfolding
import Decombinator.Proofs.Expr.ReadBack
import Decombinator.Proofs.Machine.Selection
import Decombinator.Proofs.Equality
import Decombinator.Proofs.Code.Layout
import Decombinator.Proofs.Session.Dispatch
