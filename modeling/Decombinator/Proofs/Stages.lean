/-
The names of a definition, through all stages.

Elimination makes a hygienic term in which every function uses its parameter.  From then
on each stage retains the names: it adds no binder, and it neither loses nor invents a
reference.  Only the last stage changes names, and it changes all of them by one map that
keeps binders apart.
-/
import Decombinator.Proofs.Expr.Algebra
import Decombinator.Proofs.Expr.Idioms
import Decombinator.Proofs.Expr.Renaming
import Decombinator.Proofs.Lambda.Elimination
import Decombinator.Proofs.Lambda.Shrink
import Decombinator.Stages

namespace Decombinator.Stages

variable (dict : Dictionary) (d : Definition)

theorem shrunk_retains :
    Retains (ofDefinition dict d).lambda.binders (ofDefinition dict d).lambda.free
      (ofDefinition dict d).shrunk.binders (ofDefinition dict d).shrunk.free := by
  have hreduces := Lambda.shrink_reduces (Lambda.ofCode_hygienic d.value)
  refine ⟨hreduces.count_binders_le, fun z => ⟨hreduces.mem_free, ?_⟩⟩
  exact hreduces.mem_free_of_relevant (Lambda.ofCode_relevant d.value)

theorem folded_retains :
    Retains (ofDefinition dict d).lambda.binders (ofDefinition dict d).lambda.free
      (ofDefinition dict d).folded.binders (ofDefinition dict d).folded.free :=
  (shrunk_retains dict d).trans (Folded.ofLambda_retains _)

theorem folded_hygienic : (ofDefinition dict d).folded.Hygienic :=
  (folded_retains dict d).hygiene (Lambda.ofCode_hygienic d.value)

theorem empty_notMem_binders_folded : "" ∉ (ofDefinition dict d).folded.binders :=
  fun h => Lambda.empty_notMem_binders_ofCode d.value ((folded_retains dict d).mem_binders h)

theorem idioms_retains :
    Retains (ofDefinition dict d).lambda.binders (ofDefinition dict d).lambda.free
      (ofDefinition dict d).idioms.binders (ofDefinition dict d).idioms.free :=
  (folded_retains dict d).trans
    (Expr.ofFolded_retains dict (folded_hygienic dict d) (empty_notMem_binders_folded dict d))

theorem tidied_retains :
    Retains (ofDefinition dict d).lambda.binders (ofDefinition dict d).lambda.free
      (ofDefinition dict d).tidied.binders (ofDefinition dict d).tidied.free :=
  (idioms_retains dict d).trans (Expr.tidy_retains _)

theorem tidied_hygienic : (ofDefinition dict d).tidied.Hygienic :=
  (tidied_retains dict d).hygiene (Lambda.ofCode_hygienic d.value)

/-- **Every stage is hygienic**: over the whole of each tree no two binders share a name, and
no binder shares its name with a free symbol. -/
theorem all_hygienic :
    (ofDefinition dict d).lambda.Hygienic ∧ (ofDefinition dict d).shrunk.Hygienic ∧
      (ofDefinition dict d).folded.Hygienic ∧ (ofDefinition dict d).idioms.Hygienic ∧
      (ofDefinition dict d).tidied.Hygienic ∧ (ofDefinition dict d).renamed.Hygienic := by
  have hlambda : (ofDefinition dict d).lambda.Hygienic := Lambda.ofCode_hygienic d.value
  refine ⟨hlambda, ?_, ?_, ?_, ?_, ?_⟩
  · exact (shrunk_retains dict d).hygiene hlambda
  · exact folded_hygienic dict d
  · exact (idioms_retains dict d).hygiene hlambda
  · exact tidied_hygienic dict d
  · exact Expr.rename_hygienic dict (tidied_hygienic dict d)

/-- **No reference is lost or invented**: the free symbols of each stage are the symbols of
the code, and in the end those by their readable names. -/
theorem mem_free_iff_symbols (z : String) :
    (z ∈ (ofDefinition dict d).lambda.free ↔ z ∈ d.value.symbols) ∧
      (z ∈ (ofDefinition dict d).shrunk.free ↔ z ∈ d.value.symbols) ∧
      (z ∈ (ofDefinition dict d).folded.free ↔ z ∈ d.value.symbols) ∧
      (z ∈ (ofDefinition dict d).idioms.free ↔ z ∈ d.value.symbols) ∧
      (z ∈ (ofDefinition dict d).tidied.free ↔ z ∈ d.value.symbols) ∧
      (z ∈ (ofDefinition dict d).renamed.free ↔ ∃ x ∈ d.value.symbols, dict.nameOf x = z) := by
  have hlambda : ∀ x, x ∈ (ofDefinition dict d).lambda.free ↔ x ∈ d.value.symbols :=
    fun _ => Lambda.mem_free_ofCode
  refine ⟨hlambda z, ?_, ?_, ?_, ?_, ?_⟩
  · exact ((shrunk_retains dict d).mem_iff z).trans (hlambda z)
  · exact ((folded_retains dict d).mem_iff z).trans (hlambda z)
  · exact ((idioms_retains dict d).mem_iff z).trans (hlambda z)
  · exact ((tidied_retains dict d).mem_iff z).trans (hlambda z)
  · have hrename : z ∈ (ofDefinition dict d).renamed.free ↔
        ∃ x ∈ (ofDefinition dict d).tidied.free, dict.nameOf x = z :=
      Expr.mem_free_rename dict (tidied_hygienic dict d)
    simp only [hrename, (tidied_retains dict d).mem_iff, hlambda]

end Decombinator.Stages
