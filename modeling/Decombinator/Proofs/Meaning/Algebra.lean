/-
Tidying keeps the meaning of an expression.

The rules for sums are equations of 64-bit arithmetic, failures included: an operand that is
evaluated twice has the same value both times, and dividing by zero has none on either side.
A match agrees with the conditional in place of which it stands whenever the test of the
conditional has a value; where the test fails the match may go on.
-/
import Decombinator.Proofs.Expr.Algebra
import Decombinator.Proofs.Meaning.Congruence

namespace Decombinator.ByName

open Decombinator.Expr Machine

variable {Γ : Globals} {w : Val} {ν : String → String} {ρ : Scope} {e e' a b x l r yes body : Expr}
  {hd tl : String} {names : List String}

/-! ### Arithmetic -/

theorem div_eq_ofInt (m n : Int64) : m / n = Int64.ofInt (m.toInt.tdiv n.toInt) := by
  rw [← Int64.toInt_inj, Int64.toInt_div, Int64.toInt_ofInt]

/-- A remainder is what is left of the dividend, also where the quotient wraps. -/
theorem sub_mul_div (m n : Int64) : m + -(n * (m / n)) = m % n := by
  rw [← Int64.ofInt_toInt (m % n), Int64.toInt_mod, Int.tmod_def, Int64.ofInt_sub, Int64.ofInt_mul,
    Int64.ofInt_toInt, Int64.ofInt_toInt, ← div_eq_ofInt, Int64.add_neg_eq_sub]

theorem evals_binary {op : BinOp} (hand : op ≠ .and) (hor : op ≠ .or) :
    Evals Γ (.expr (binary op a b) ρ) w ↔
      ∃ m n, Evals Γ (.expr a ρ) (.int m) ∧ Evals Γ (.expr b ρ) (.int n) ∧
        Gives Γ (.computed (compute op m n)) w := by
  have hnext : next Γ (.expr (binary op a b) ρ) =
      .need (.expr a ρ) fun u => .need (.expr b ρ) fun u' => ByName.arith op u u' := by
    cases op with
    | and => exact absurd rfl hand
    | or => exact absurd rfl hor
    | _ => rfl
  rw [Evals, hnext]
  simp only [gives_need]
  constructor
  · rintro ⟨u, hu, u', hu', hw⟩
    cases u with
    | int m =>
        cases u' with
        | int n => exact ⟨m, n, hu, hu', hw⟩
        | _ => exact absurd hw not_gives_stuck
    | _ => exact absurd hw not_gives_stuck
  · rintro ⟨m, n, hm, hn, hw⟩
    exact ⟨_, hm, _, hn, hw⟩

theorem evals_neg : Evals Γ (.expr (neg a) ρ) w ↔ ∃ m, Evals Γ (.expr a ρ) (.int m) ∧ .int (-m) = w := by
  have hnext : Evals Γ (.expr (neg a) ρ) w ↔ Gives Γ (.need (.expr a ρ) ByName.negate) w := by
    simp [Evals, next, nextExpr, Val.appliedUnary]
  rw [hnext, gives_need]
  constructor
  · rintro ⟨u, hu, hw⟩
    cases u with
    | int m => exact ⟨m, hu, gives_ret.mp hw⟩
    | _ => exact absurd hw not_gives_stuck
  · rintro ⟨m, hm, hw⟩
    exact ⟨_, hm, gives_ret.mpr hw⟩

@[simp] theorem evals_int {n : Int64} : Evals Γ (.expr (int n) ρ) w ↔ .int n = w :=
  gives_ret

theorem evals_add : Evals Γ (.expr (binary .add a b) ρ) w ↔
    ∃ m n, Evals Γ (.expr a ρ) (.int m) ∧ Evals Γ (.expr b ρ) (.int n) ∧ .int (m + n) = w := by
  rw [evals_binary (by decide) (by decide)]
  exact exists_congr fun m => exists_congr fun n =>
    and_congr_right fun _ => and_congr_right fun _ => gives_ret

theorem evals_sub : Evals Γ (.expr (binary .sub a b) ρ) w ↔
    ∃ m n, Evals Γ (.expr a ρ) (.int m) ∧ Evals Γ (.expr b ρ) (.int n) ∧ .int (m - n) = w := by
  rw [evals_binary (by decide) (by decide)]
  exact exists_congr fun m => exists_congr fun n =>
    and_congr_right fun _ => and_congr_right fun _ => gives_ret

theorem evals_mul : Evals Γ (.expr (binary .mul a b) ρ) w ↔
    ∃ m n, Evals Γ (.expr a ρ) (.int m) ∧ Evals Γ (.expr b ρ) (.int n) ∧ .int (m * n) = w := by
  rw [evals_binary (by decide) (by decide)]
  exact exists_congr fun m => exists_congr fun n =>
    and_congr_right fun _ => and_congr_right fun _ => gives_ret

/-- Dividing, where zero does not divide. -/
theorem gives_computed_div {m n : Int64} :
    Gives Γ (.computed (compute .div m n)) w ↔ n ≠ 0 ∧ .int (m / n) = w := by
  by_cases hn : n = 0
  · simp [compute, hn, Next.computed]
  · simp [compute, hn, Next.computed]

theorem gives_computed_mod {m n : Int64} :
    Gives Γ (.computed (compute .mod m n)) w ↔ n ≠ 0 ∧ .int (m % n) = w := by
  by_cases hn : n = 0
  · simp [compute, hn, Next.computed]
  · simp [compute, hn, Next.computed]

theorem same_remainder : Same Γ (.expr (binary .add a (neg (binary .mul b (binary .div a b)))) ρ)
    (.expr (binary .mod a b) ρ) := by
  intro w
  rw [evals_add, evals_binary (by decide) (by decide)]
  constructor
  · rintro ⟨m, k, hm, hk, rfl⟩
    obtain ⟨p, hp, hpk⟩ := evals_neg.mp hk
    obtain ⟨n, q, hn, hq, hnq⟩ := evals_mul.mp hp
    obtain ⟨m', n', hm', hn', hdiv⟩ := (evals_binary (by decide) (by decide)).mp hq
    obtain ⟨hzero, hq⟩ := gives_computed_div.mp hdiv
    cases hm.unique hm'
    cases hn.unique hn'
    cases hq
    cases hnq
    cases hpk
    exact ⟨m, n, hm, hn, gives_computed_mod.mpr ⟨hzero, congrArg _ (sub_mul_div m n).symm⟩⟩
  · rintro ⟨m, n, hm, hn, hmod⟩
    obtain ⟨hzero, rfl⟩ := gives_computed_mod.mp hmod
    refine ⟨m, -(n * (m / n)), hm, evals_neg.mpr ⟨_, ?_, rfl⟩, congrArg _ (sub_mul_div m n)⟩
    refine evals_mul.mpr ⟨n, m / n, hn, ?_, rfl⟩
    exact (evals_binary (by decide) (by decide)).mpr
      ⟨m, n, hm, hn, gives_computed_div.mpr ⟨hzero, rfl⟩⟩

/-- The rules other than the one for conditionals are equations. -/
theorem same_of_tidying (h : Tidying e e') (hcond : ∀ a b r, e ≠ .cond a b r) :
    Same Γ (.expr e ρ) (.expr e' ρ) := by
  cases h with
  | same => exact .refl _
  | literal n => exact fun w => by simp [evals_neg]
  | remainder a b => exact same_remainder
  | minus a b =>
      intro w
      simp [evals_add, evals_sub, evals_neg, Int64.add_neg_eq_sub]
  | minusLiteral a n =>
      intro w
      simp [evals_add, evals_sub, Int64.sub_neg]
  | minusLeft a b =>
      intro w
      rw [evals_add, evals_sub]
      constructor
      · rintro ⟨m, n, hm, hn, rfl⟩
        obtain ⟨m', hm', hmm⟩ := evals_neg.mp hm
        cases hmm
        exact ⟨n, m', hn, hm', by rw [Int64.sub_eq_add_neg, Int64.add_comm]⟩
      · rintro ⟨n, m, hn, hm, rfl⟩
        exact ⟨-m, n, evals_neg.mpr ⟨m, hm, rfl⟩, hn, by rw [Int64.sub_eq_add_neg, Int64.add_comm]⟩
  | minusLeftLiteral n b =>
      intro w
      simp [evals_add, evals_sub, Int64.sub_neg, Int64.add_comm]
  | matching x yes b h t => exact absurd rfl (hcond _ _ _)

/-! ### Matching -/

/-- A test for an empty list that has an outcome was given a list. -/
theorem evals_of_truth_isNil {t : Bool} (h : Gives Γ (truthOf (isNil x) ρ) (.bool t)) :
    if t then Evals Γ (.expr x ρ) .nil else ∃ hd tl, Evals Γ (.expr x ρ) (.cons hd tl) := by
  obtain ⟨u, hu, hb⟩ := gives_need.mp h
  obtain ⟨v, hv, hnil⟩ := gives_need.mp hu
  cases v with
  | nil =>
      obtain rfl := gives_ret.mp hnil
      cases gives_ret.mp hb
      exact hv
  | cons hd tl =>
      obtain rfl := gives_ret.mp hnil
      cases gives_ret.mp hb
      exact ⟨hd, tl, hv⟩
  | _ => exact absurd hnil not_gives_stuck

theorem matching_stands (ha : Stands Γ names ν a (isNil x)) (hb : Stands Γ names ν b yes)
    (hr : Stands Γ names ν r (letCons hd tl x body)) :
    Stands Γ names ν (.cond a b r) (matchList x yes hd tl body) := by
  intro k ρ ρ' hρ' h
  simp only [free, List.mem_append] at h
  have ha := ha k ρ ρ' hρ' fun y hy => h y (Or.inl hy)
  have hb := hb k ρ ρ' hρ' fun y hy => h y (Or.inr (Or.inl hy))
  have hr := hr k ρ ρ' hρ' fun y hy => h y (Or.inr (Or.inr hy))
  refine branch_refines ha (fun ht => ?_) (fun ht => ?_)
  · have hnil : Evals Γ (.expr x ρ') .nil := evals_of_truth_isNil ht
    exact ((Refines.of_below hb).mono (Nat.le_succ k)).same (same_matchList_nil hnil).symm
  · obtain ⟨_, _, hcons⟩ : ∃ hd tl, Evals Γ (.expr x ρ') (.cons hd tl) := evals_of_truth_isNil ht
    have hnil : ¬ Evals Γ (.expr x ρ') .nil := fun hnil => by cases hcons.unique hnil
    exact ((Refines.of_below hr).mono (Nat.le_succ k)).same
      (Same.trans same_letCons (same_matchList_apply hnil).symm)

/-! ### Expressions -/

theorem conditional_stands {a' b' r' : Expr} (ha : Stands Γ names ν a a') (hb : Stands Γ names ν b b')
    (hr : Stands Γ names ν r r') : Stands Γ names ν (.cond a b r) (conditional a' b' r') := by
  generalize hc : conditional a' b' r' = c
  have htidying := conditional_tidying a' b' r'
  rw [hc] at htidying
  cases htidying with
  | same => exact ha.cond hb hr
  | matching x _ body hd tl => exact matching_stands ha hb hr

/-- **An expression is represented by the tidy expression.** -/
theorem tidy_stands (e : Expr) : Stands Γ [] id e e.tidy := by
  induction e with
  | int n => exact .int n
  | sym x => exact .sym x
  | bool b => exact .bool b
  | prim p => exact .prim p
  | list es ih =>
      rw [tidy, tidyAll_eq_map]
      exact .list (List.forall₂_map_right_iff.mpr (List.forall₂_same.mpr ih))
  | neg a ih =>
      exact ih.neg.covers fun ρ _ => Same.covers (same_of_tidying (negation_tidying _) (by simp))
  | not a ih => exact ih.not
  | isNil a ih => exact ih.isNil
  | binary op a b iha ihb =>
      refine (iha.binary op ihb).covers fun ρ _ => Same.covers ?_
      exact same_of_tidying (operation_tidying op _ _) (by simp)
  | cond a b r iha ihb ihr => exact conditional_stands iha ihb ihr
  | matchList l a hd tl b ihl iha ihb => exact ihl.matchList iha ihb (apart_id (by simp))
  | letCons hd tl l b ihl ihb => exact ihl.letCons ihb (apart_id (by simp))
  | letIn x l b ihl ihb => exact ihl.letIn ihb (apart_id (by simp))
  | call f es ihf ih =>
      rw [tidy, tidyAll_eq_map]
      exact .call ihf (List.forall₂_map_right_iff.mpr (List.forall₂_same.mpr ih))
  | func p ps b ih =>
      have h : Stands Γ [] id (.func p ps b) (.func p (ps.map id) b.tidy) :=
        ih.func (apart_id (by simp))
      rwa [List.map_id] at h

end Decombinator.ByName
