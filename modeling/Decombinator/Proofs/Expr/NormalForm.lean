/-
Tidying reaches a normal form in one pass.

Each rule is tried once at a node, after the parts of the node are tidy, and puts a new node
together from pieces of those parts without looking at it again.  Nothing is missed that way:
a difference and a remainder are no sums, a match is no conditional, and what is taken out from
under a sign is a part of something tidy.  The negation of a literal need not be positive, but
once a sum has become a difference no rule looks at the signs of its operands.

`Untidy` says which nodes a rule applies to, and `Neat` that there are none, at any depth.
-/
import Decombinator.Proofs.Expr.Algebra

namespace Decombinator.Expr

/-! ### Normal forms -/

/-- A node that a rule applies to. -/
inductive Untidy : Expr → Prop
  | negatedLiteral (n : Int64) : Untidy (neg (int n))
  | plusNegated (a b : Expr) : Untidy (binary .add a (neg b))
  | plusNegative (a : Expr) {n : Int64} (hn : n < 0) : Untidy (binary .add a (int n))
  | negatedPlus (a b : Expr) : Untidy (binary .add (neg a) b)
  | negativePlus {n : Int64} (hn : n < 0) (b : Expr) : Untidy (binary .add (int n) b)
  | tested {x v : Expr} (yes b : Expr) (h t : String) (hxv : equal x v) :
      Untidy (cond (isNil x) yes (letCons h t v b))

/-- No rule applies to any node. -/
def Neat (e : Expr) : Prop :=
  ∀ n ∈ e.nodes, ¬ Untidy n

theorem neat_iff {e : Expr} : Neat e ↔ ¬ Untidy e ∧ ∀ a ∈ e.parts, Neat a := by
  unfold Neat
  rw [nodes_eq_parts]
  simp only [List.mem_cons, List.mem_flatMap]
  grind

theorem Neat.part {e a : Expr} (h : Neat e) (ha : a ∈ e.parts) : Neat a :=
  (neat_iff.mp h).2 a ha

theorem neat_int (n : Int64) : Neat (int n) :=
  neat_iff.mpr ⟨by rintro ⟨⟩, by simp [parts]⟩

theorem neat_binary {op : BinOp} {a b : Expr} (hop : op ≠ .add) (ha : Neat a) (hb : Neat b) :
    Neat (binary op a b) := by
  refine neat_iff.mpr ⟨?_, by simp [parts, ha, hb]⟩
  intro h
  cases h <;> exact hop rfl

/-! ### A node changes exactly if a rule applies to it -/

theorem negation_eq_neg_iff {a : Expr} : negation a = neg a ↔ ¬ Untidy (neg a) := by
  constructor
  · intro heq h
    cases h
    cases heq
  · intro h
    rw [negation.eq_def]
    split
    · exact absurd (.negatedLiteral _) h
    · rfl

theorem negated_eq_none {e : Expr} (hneg : ∀ b, e ≠ neg b) (hint : ∀ n, n < 0 → e ≠ int n) :
    negated? e = none := by
  rw [negated?.eq_def]
  split
  · exact absurd rfl (hneg _)
  · split
    · rename_i n hn
      exact absurd rfl (hint n hn)
    · rfl
  · rfl

/-- A sum of which either operand can be subtracted is not left a sum. -/
theorem sum_ne_add {l r : Expr} (h : negated? l ≠ none ∨ negated? r ≠ none) :
    sum l r ≠ binary .add l r := by
  rw [sum.eq_def]
  split
  · split <;> simp
  · split
    · simp
    · rename_i hr
      split
      · simp
      · rename_i hl
        exact absurd h (by simp [hl, hr])

theorem sum_eq_add_iff {l r : Expr} : sum l r = binary .add l r ↔ ¬ Untidy (binary .add l r) := by
  constructor
  · intro heq h
    refine sum_ne_add ?_ heq
    cases h with
    | plusNegated => exact .inr (by simp [negated?])
    | plusNegative _ hn => exact .inr (by simp [negated?, hn])
    | negatedPlus => exact .inl (by simp [negated?])
    | negativePlus hn => exact .inl (by simp [negated?, hn])
  · intro h
    have hl : negated? l = none := by
      refine negated_eq_none ?_ ?_
      · rintro b rfl
        exact h (.negatedPlus b r)
      · rintro n hn rfl
        exact h (.negativePlus hn r)
    have hr : negated? r = none := by
      refine negated_eq_none ?_ ?_
      · rintro b rfl
        exact h (.plusNegated l b)
      · rintro n hn rfl
        exact h (.plusNegative l hn)
    rw [sum.eq_def]
    split
    · cases hr
    · rw [hr, hl]

theorem operation_eq_binary_iff {op : BinOp} {l r : Expr} :
    operation op l r = binary op l r ↔ ¬ Untidy (binary op l r) := by
  rw [operation.eq_def]
  split
  · exact sum_eq_add_iff
  · rename_i hop
    refine iff_of_true rfl ?_
    intro h
    cases h <;> exact hop rfl

theorem conditional_eq_cond_iff {test yes no : Expr} :
    conditional test yes no = cond test yes no ↔ ¬ Untidy (cond test yes no) := by
  constructor
  · intro heq h
    cases h with
    | tested _ _ _ _ hxv => simp [conditional, hxv] at heq
  · intro h
    rw [conditional.eq_def]
    split
    · split
      · rename_i hxv
        exact absurd (.tested _ _ _ _ hxv) h
      · rfl
    · rfl

/-! ### Neat expressions stay as they are -/

theorem tidyAll_of_neat {es : List Expr} (h : ∀ e ∈ es, e.tidy = e) : tidyAll es = es := by
  rw [tidyAll_eq_map]
  exact (List.map_congr_left h).trans (List.map_id es)

/-- **A neat expression stays as it is.** -/
theorem tidy_of_neat {e : Expr} (h : Neat e) : e.tidy = e := by
  induction e with
  | int n => rfl
  | sym x => rfl
  | bool b => rfl
  | prim p => rfl
  | list es ih => rw [tidy, tidyAll_of_neat fun e he => ih e he (h.part he)]
  | neg a ih =>
      rw [tidy, ih (h.part (by simp [parts]))]
      exact negation_eq_neg_iff.mpr (neat_iff.mp h).1
  | not a ih => rw [tidy, ih (h.part (by simp [parts]))]
  | isNil a ih => rw [tidy, ih (h.part (by simp [parts]))]
  | binary op a b iha ihb =>
      rw [tidy, iha (h.part (by simp [parts])), ihb (h.part (by simp [parts]))]
      exact operation_eq_binary_iff.mpr (neat_iff.mp h).1
  | cond a b c iha ihb ihc =>
      rw [tidy, iha (h.part (by simp [parts])), ihb (h.part (by simp [parts])),
        ihc (h.part (by simp [parts]))]
      exact conditional_eq_cond_iff.mpr (neat_iff.mp h).1
  | matchList v e hd tl b ihv ihe ihb =>
      rw [tidy, ihv (h.part (by simp [parts])), ihe (h.part (by simp [parts])),
        ihb (h.part (by simp [parts]))]
  | letCons hd tl v b ihv ihb =>
      rw [tidy, ihv (h.part (by simp [parts])), ihb (h.part (by simp [parts]))]
  | letIn x v b ihv ihb =>
      rw [tidy, ihv (h.part (by simp [parts])), ihb (h.part (by simp [parts]))]
  | call f es ihf ih =>
      rw [tidy, ihf (h.part (by simp [parts])),
        tidyAll_of_neat fun e he => ih e he (h.part (by simp [parts, he]))]
  | func p ps b ih => rw [tidy, ih (h.part (by simp [parts]))]

/-! ### Tidy expressions are neat -/

/-- What a rule makes of a node with neat parts is neat. -/
theorem Tidying.neat {e e' : Expr} (h : Tidying e e') (hparts : ∀ a ∈ e.parts, Neat a)
    (hsame : e' = e → ¬ Untidy e) : Neat e' := by
  cases h with
  | same => exact neat_iff.mpr ⟨hsame rfl, hparts⟩
  | literal n => exact neat_int (-n)
  | remainder a b =>
      have hneg : Neat (neg (binary .mul b (binary .div a b))) := hparts _ (by simp [parts])
      have hmul : Neat (binary .mul b (binary .div a b)) := hneg.part (by simp [parts])
      exact neat_binary (by decide) (hparts a (by simp [parts])) (hmul.part (by simp [parts]))
  | minus a b =>
      have hneg : Neat (neg b) := hparts _ (by simp [parts])
      exact neat_binary (by decide) (hparts a (by simp [parts])) (hneg.part (by simp [parts]))
  | minusLiteral a n =>
      exact neat_binary (by decide) (hparts a (by simp [parts])) (neat_int (-n))
  | minusLeft a b =>
      have hneg : Neat (neg a) := hparts _ (by simp [parts])
      exact neat_binary (by decide) (hparts b (by simp [parts])) (hneg.part (by simp [parts]))
  | minusLeftLiteral n b =>
      exact neat_binary (by decide) (hparts b (by simp [parts])) (neat_int (-n))
  | matching x yes b hd tl =>
      have hno : Neat (letCons hd tl x b) := hparts _ (by simp [parts])
      refine neat_iff.mpr ⟨by rintro ⟨⟩, ?_⟩
      simp [parts, hparts yes (by simp [parts]), hno.part (a := x) (by simp [parts]),
        hno.part (a := b) (by simp [parts])]

/-- **A tidy expression is neat.** -/
theorem neat_tidy (e : Expr) : Neat e.tidy := by
  induction e with
  | int n => exact neat_int n
  | sym x => exact neat_iff.mpr ⟨by rintro ⟨⟩, by simp [tidy, parts]⟩
  | bool b => exact neat_iff.mpr ⟨by rintro ⟨⟩, by simp [tidy, parts]⟩
  | prim p => exact neat_iff.mpr ⟨by rintro ⟨⟩, by simp [tidy, parts]⟩
  | list es ih => exact neat_iff.mpr ⟨by rintro ⟨⟩, by simpa [tidy, parts, tidyAll_eq_map] using ih⟩
  | neg a ih =>
      exact (negation_tidying a.tidy).neat (by simpa [parts] using ih) negation_eq_neg_iff.mp
  | not a ih => exact neat_iff.mpr ⟨by rintro ⟨⟩, by simpa [tidy, parts] using ih⟩
  | isNil a ih => exact neat_iff.mpr ⟨by rintro ⟨⟩, by simpa [tidy, parts] using ih⟩
  | binary op a b iha ihb =>
      exact (operation_tidying op a.tidy b.tidy).neat (by simpa [parts] using ⟨iha, ihb⟩)
        operation_eq_binary_iff.mp
  | cond a b c iha ihb ihc =>
      exact (conditional_tidying a.tidy b.tidy c.tidy).neat (by simpa [parts] using ⟨iha, ihb, ihc⟩)
        conditional_eq_cond_iff.mp
  | matchList v e h t b ihv ihe ihb =>
      exact neat_iff.mpr ⟨by rintro ⟨⟩, by simpa [tidy, parts] using ⟨ihv, ihe, ihb⟩⟩
  | letCons h t v b ihv ihb =>
      exact neat_iff.mpr ⟨by rintro ⟨⟩, by simpa [tidy, parts] using ⟨ihv, ihb⟩⟩
  | letIn x v b ihv ihb =>
      exact neat_iff.mpr ⟨by rintro ⟨⟩, by simpa [tidy, parts] using ⟨ihv, ihb⟩⟩
  | call f es ihf ih =>
      exact neat_iff.mpr ⟨by rintro ⟨⟩, by simpa [tidy, parts, tidyAll_eq_map] using ⟨ihf, ih⟩⟩
  | func p ps b ih => exact neat_iff.mpr ⟨by rintro ⟨⟩, by simpa [tidy, parts] using ih⟩

theorem tidy_eq_self_iff {e : Expr} : e.tidy = e ↔ Neat e :=
  ⟨fun h => h ▸ neat_tidy e, tidy_of_neat⟩

/-- **Tidying reaches a normal form in one pass**: the result has no node to which a rule
applies, at any depth, and tidying it again changes nothing.  Only what has no such node is left
as it is. -/
theorem tidy_normal (e : Expr) :
    e.tidy.tidy = e.tidy ∧ (∀ n ∈ e.tidy.nodes, ¬ Untidy n) ∧
      (e.tidy = e ↔ ∀ n ∈ e.nodes, ¬ Untidy n) :=
  ⟨tidy_eq_self_iff.mpr (neat_tidy e), neat_tidy e, tidy_eq_self_iff⟩

/-- The smallest integer is its own negation, and stays negative where it is subtracted. -/
example : (binary .add (sym "x") (neg (int Int64.minValue))).tidy =
    binary .sub (sym "x") (int Int64.minValue) := by
  rfl

end Decombinator.Expr
