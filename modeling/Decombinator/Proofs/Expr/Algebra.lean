/-
What tidying makes of sums and conditionals, and that it keeps the names.

Tidying changes three kinds of node: negations of literals, sums, and conditionals.
`Tidying` lists what may become of an operation and of a conditional.  Where a rule drops
a subexpression, an equal one stays.
-/
import Decombinator.Expr.Algebra
import Decombinator.Proofs.Equality

namespace Decombinator.Expr

/-! ### The rules -/

/-- What may become of a node whose parts are tidy. -/
inductive Tidying : Expr → Expr → Prop
  | same (e : Expr) : Tidying e e
  | literal (n : Int64) : Tidying (neg (int n)) (int (-n))
  | remainder (a b : Expr) :
      Tidying (binary .add a (neg (binary .mul b (binary .div a b)))) (binary .mod a b)
  | minus (a b : Expr) : Tidying (binary .add a (neg b)) (binary .sub a b)
  | minusLiteral (a : Expr) (n : Int64) : Tidying (binary .add a (int n)) (binary .sub a (int (-n)))
  | minusLeft (a b : Expr) : Tidying (binary .add (neg a) b) (binary .sub b a)
  | minusLeftLiteral (n : Int64) (b : Expr) :
      Tidying (binary .add (int n) b) (binary .sub b (int (-n)))
  | matching (x yes b : Expr) (h t : String) :
      Tidying (cond (isNil x) yes (letCons h t x b)) (matchList x yes h t b)

theorem negation_tidying (e : Expr) : Tidying (neg e) (negation e) := by
  rw [negation.eq_def]
  split
  · exact .literal _
  · exact .same _

theorem multipleOfQuotient_eq {a b d : Expr} (h : multipleOfQuotient? a b = some d) :
    b = binary .mul d (binary .div a d) := by
  rw [multipleOfQuotient?.eq_def] at h
  split at h
  · split at h
    · rename_i hboth
      rw [Bool.and_eq_true] at hboth
      obtain rfl := Option.some.inj h
      rw [eq_of_equal _ hboth.1, eq_of_equal _ hboth.2]
    · cases h
  · cases h

theorem negated_cases {e b : Expr} (h : negated? e = some b) :
    e = neg b ∨ ∃ n, e = int n ∧ b = int (-n) := by
  rw [negated?.eq_def] at h
  split at h
  · exact Or.inl (congrArg neg (Option.some.inj h))
  · split at h
    · exact Or.inr ⟨_, rfl, (Option.some.inj h).symm⟩
    · cases h
  · cases h

theorem sum_tidying (l r : Expr) : Tidying (binary .add l r) (sum l r) := by
  rw [sum.eq_def]
  split
  · split
    · rename_i b d hd
      rw [multipleOfQuotient_eq hd]
      exact .remainder l d
    · exact .minus l _
  · split
    · rename_i b hb
      rcases negated_cases hb with rfl | ⟨n, rfl, rfl⟩
      · exact .minus l b
      · exact .minusLiteral l n
    · split
      · rename_i a ha
        rcases negated_cases ha with rfl | ⟨n, rfl, rfl⟩
        · exact .minusLeft a r
        · exact .minusLeftLiteral n r
      · exact .same _

theorem operation_tidying (op : BinOp) (l r : Expr) :
    Tidying (binary op l r) (operation op l r) := by
  rw [operation.eq_def]
  split
  · exact sum_tidying l r
  · exact .same _

theorem conditional_tidying (test yes no : Expr) :
    Tidying (cond test yes no) (conditional test yes no) := by
  rw [conditional.eq_def]
  split
  · split
    · rename_i x h t v b heq
      rw [eq_of_equal _ heq]
      exact .matching v yes b h t
    · exact .same _
  · exact .same _

/-! ### Tidying keeps the names -/

theorem tidyAll_eq_map (es : List Expr) : tidyAll es = es.map tidy := by
  induction es with
  | nil => rfl
  | cons e es ih => rw [tidyAll, ih, List.map_cons]

theorem Tidying.retains {e e' : Expr} (h : Tidying e e') :
    Retains e.binders e.free e'.binders e'.free := by
  cases h with
  | same => exact .refl _ _
  | literal n => exact ⟨by simp, by simp [free]⟩
  | remainder a b => exact ⟨by simp, by simp [free]; grind⟩
  | minus a b => exact ⟨by simp, by simp [free]⟩
  | minusLiteral a n => exact ⟨by simp, by simp [free]⟩
  | minusLeft a b => exact ⟨by simp; omega, by simp [free]; grind⟩
  | minusLeftLiteral n b => exact ⟨by simp, by simp [free]⟩
  | matching x yes b h t => exact ⟨by simp [List.count_cons]; omega, by simp [free]; grind⟩

theorem tidyAll_retains {es : List Expr}
    (ih : ∀ e ∈ es, Retains e.binders e.free e.tidy.binders e.tidy.free) :
    Retains (es.flatMap binders) (freeAll es) ((tidyAll es).flatMap binders)
      (freeAll (tidyAll es)) := by
  induction es with
  | nil => exact .refl _ _
  | cons e es ihes =>
      exact (ih e (by simp)).append (ihes fun x hx => ih x (List.mem_cons_of_mem _ hx))

/-- **Tidying keeps the names of an expression.** -/
theorem tidy_retains (e : Expr) : Retains e.binders e.free e.tidy.binders e.tidy.free := by
  induction e with
  | int n => exact .refl _ _
  | sym x => exact .refl _ _
  | bool b => exact .refl _ _
  | prim p => exact .refl _ _
  | list es ih =>
      have hes := tidyAll_retains ih
      refine ⟨fun z => ?_, fun z => hes.mem_iff z⟩
      rw [tidy, binders_list, binders_list]
      exact hes.count_le z
  | neg a ih => exact Retains.trans ih (negation_tidying _).retains
  | not a ih => exact ih
  | isNil a ih => exact ih
  | binary op a b iha ihb =>
      have hab : Retains (binary op a b).binders (binary op a b).free
          (binary op a.tidy b.tidy).binders (binary op a.tidy b.tidy).free := by
        rw [binders_binary, binders_binary]
        exact iha.append ihb
      exact hab.trans (operation_tidying op _ _).retains
  | cond a b c iha ihb ihc =>
      have habc : Retains (cond a b c).binders (cond a b c).free
          (cond a.tidy b.tidy c.tidy).binders (cond a.tidy b.tidy c.tidy).free := by
        rw [binders_cond, binders_cond]
        exact iha.append (ihb.append ihc)
      exact habc.trans (conditional_tidying _ _ _).retains
  | matchList v e h t b ihv ihe ihb =>
      refine ⟨fun z => ?_, fun z => ?_⟩
      · have := ihv.count_le z
        have := ihe.count_le z
        have := ihb.count_le z
        simp only [tidy, binders_matchList, List.count_cons, List.count_append]
        omega
      · simp [tidy, free, ihv.mem_iff, ihe.mem_iff, ihb.mem_iff]
  | letCons h t v b ihv ihb =>
      refine ⟨fun z => ?_, fun z => ?_⟩
      · have := ihv.count_le z
        have := ihb.count_le z
        simp only [tidy, binders_letCons, List.count_cons, List.count_append]
        omega
      · simp [tidy, free, ihv.mem_iff, ihb.mem_iff]
  | letIn x v b ihv ihb =>
      rw [tidy, binders_letIn, binders_letIn]
      refine ⟨fun z => ?_, fun z => ?_⟩
      · have := ihv.count_le z
        have := ihb.count_le z
        simp only [List.count_cons, List.count_append]
        omega
      · simp [free, ihv.mem_iff, ihb.mem_iff]
  | call f es ihf ih =>
      rw [tidy, binders_call, binders_call]
      exact ihf.append (tidyAll_retains ih)
  | func p ps b ih =>
      refine ⟨fun z => ?_, fun z => ?_⟩
      · have := ih.count_le z
        simp only [tidy, binders_func, List.count_cons, List.count_append]
        omega
      · simp [tidy, free, ih.mem_iff]

end Decombinator.Expr
