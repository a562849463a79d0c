/-
Structural equality is equality.

Expressions and folded terms hold lists of themselves, and are compared by functions written out
form by form.  A comparison that left out a field, or that stopped at the end of the shorter of two
lists, would take different trees for the same.  Tidying drops a subexpression where an equal one
stays, so it would then change what an expression means.

Both comparisons are exact.  The induction is on the first tree, for all second trees at once; at a
list it gives the statement for each item.
-/
import Decombinator.Proofs.Expr.Names
import Decombinator.Proofs.Folded

namespace Decombinator

/-- Comparing lists item by item is exact if comparing the items is. -/
theorem isEqv_iff {α : Type} {eq : α → α → Bool} {xs : List α}
    (h : ∀ x ∈ xs, ∀ y, eq x y = true ↔ x = y) : ∀ ys, xs.isEqv ys eq = true ↔ xs = ys := by
  induction xs with
  | nil =>
      intro ys
      cases ys with
      | nil => simp [List.isEqv]
      | cons y ys => simp [List.isEqv]
  | cons x xs ih =>
      intro ys
      cases ys with
      | nil => simp [List.isEqv]
      | cons y ys =>
          have hrest := ih (fun z hz => h z (List.mem_cons_of_mem x hz)) ys
          rw [List.isEqv, Bool.and_eq_true, h x List.mem_cons_self y, hrest, List.cons.injEq]

namespace Expr

theorem equalAll_eq_isEqv (xs ys : List Expr) : equalAll xs ys = xs.isEqv ys equal := by
  induction xs generalizing ys with
  | nil => cases ys <;> rfl
  | cons x xs ih =>
      cases ys with
      | nil => rfl
      | cons y ys => rw [equalAll, ih, List.isEqv]

theorem equal_iff (a : Expr) : ∀ b, equal a b = true ↔ a = b := by
  induction a with
  | list xs ih =>
      intro b
      cases b with
      | list ys => rw [equal, equalAll_eq_isEqv, isEqv_iff ih, list.injEq]
      | _ => simp [equal]
  | call f xs ihf ih =>
      intro b
      cases b with
      | call g ys =>
          rw [equal, Bool.and_eq_true, ihf, equalAll_eq_isEqv, isEqv_iff ih, call.injEq]
      | _ => simp [equal]
  | matchList v e h t c ihv ihe ihc =>
      intro b
      cases b with
      | matchList v' e' h' t' c' =>
          -- The names are compared first, though they stand behind the value and the empty case.
          simp only [equal, Bool.and_eq_true, beq_iff_eq, ihv, ihe, ihc, matchList.injEq]
          tauto
      | _ => simp [equal]
  | _ =>
      intro b
      cases b <;> simp [equal, and_assoc, *]

theorem eq_of_equal {a : Expr} (b : Expr) (h : equal a b) : a = b :=
  (equal_iff a b).mp h

end Expr

namespace Folded

theorem equalAll_eq_isEqv (ts us : List Folded) : equalAll ts us = ts.isEqv us equal := by
  induction ts generalizing us with
  | nil => cases us <;> rfl
  | cons t ts ih =>
      cases us with
      | nil => rfl
      | cons u us => rw [equalAll, ih, List.isEqv]

theorem equal_iff (t : Folded) : ∀ u, equal t u = true ↔ t = u := by
  induction t with
  | list items ih =>
      intro u
      cases u with
      | list items' => rw [equal, equalAll_eq_isEqv, isEqv_iff ih, list.injEq]
      | _ => simp [equal]
  | _ =>
      intro u
      cases u <;> simp [equal, *]

end Folded

/-- **Structural equality is exact.**  Two expressions compare as equal if and only if they are the
same tree, and so do two folded terms. -/
theorem equal_exact :
    (∀ a b : Expr, a.equal b = true ↔ a = b) ∧ ∀ t u : Folded, t.equal u = true ↔ t = u :=
  ⟨Expr.equal_iff, Folded.equal_iff⟩

end Decombinator
