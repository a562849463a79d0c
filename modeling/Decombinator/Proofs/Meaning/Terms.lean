/-
Lambda terms keep the meaning of code.

A lambda term is read as an expression node by node: functions of one parameter, calls with
one argument.  Eliminating a combinator gives a function that does the same, contracting a
redex evaluates an argument where it is used instead of passing it on, and folding writes
two functions that select their second argument as false, and a chain of cells as a list.
-/
import Decombinator.Folded
import Decombinator.Proofs.Lambda.Elimination
import Decombinator.Proofs.Meaning.Congruence

namespace Decombinator

/-- A term as an expression, node by node. -/
def Lambda.toExpr : Lambda → Expr
  | fn p body => .func p [] body.toExpr
  | ap f x => .call f.toExpr [x.toExpr]
  | sym x => .sym x
  | int n => .int n
  | prim .t => .bool true
  | prim .nil => .list []
  | prim p => .prim p

mutual

/-- A folded term as an expression, node by node. -/
def Folded.toExpr : Folded → Expr
  | .fn p body => .func p [] (Folded.toExpr body)
  | .ap f x => .call (Folded.toExpr f) [Folded.toExpr x]
  | .list items => .list (Folded.toExprAll items)
  | .sym x => .sym x
  | .int n => .int n
  | .prim p => if p = .t then .bool true else .prim p
  | .falsity => .bool false

def Folded.toExprAll : List Folded → List Expr
  | [] => []
  | t :: ts => Folded.toExpr t :: Folded.toExprAll ts

end

namespace ByName

open Decombinator.Expr Machine

variable {Γ : Globals} {k : Nat} {v : Val} {x x' y z z' : Arg} {ν : String → String}
  {ρ ρ' : Scope} {p q : String} {names : List String} {e e' f f' : Expr}

/-! ### Calls and functions of one argument -/

theorem Stands.call_one (hf : Stands Γ names ν f f') (hx : Stands Γ names ν e e') :
    Stands Γ names ν (.call f [e]) (.call f' [e']) :=
  .call hf (.cons hx .nil)

theorem Stands.func_one (hb : Stands Γ names id e e') (hp : p ∉ names) :
    Stands Γ names id (.func p [] e) (.func p [] e') :=
  .func hb (apart_id fun _ hx => List.mem_singleton.mp hx ▸ hp)

theorem same_call (f e : Expr) (ρ : Scope) :
    Same Γ (.expr (.call f [e]) ρ) (.apply (.expr f ρ) (.expr e ρ)) :=
  .of_of rfl

/-- Applying what has a known value. -/
theorem below_apply (hx : Evals Γ x v) (h : Refines Γ k (v.applied z) z') :
    Below Γ k (.apply x z) z' := by
  refine refines_need fun c u hc hu => ?_
  obtain rfl := hx.unique ⟨c, hu⟩
  exact h.mono (Nat.sub_le _ _)

theorem below_call (h : Below Γ k (.apply (.expr f ρ) (.expr e ρ)) z') :
    Below Γ k (.expr (.call f [e]) ρ) z' :=
  (Refines.of_below h).mono (Nat.le_succ k)

theorem below_beta (h : Below Γ k (.expr e ((p, z) :: ρ)) z') :
    Below Γ k (.apply (.expr (func p [] e) ρ) z) z' :=
  below_apply (gives_ret.mpr rfl) ((Refines.of_below h).mono (Nat.le_succ k))

/-- A function of one parameter above. -/
theorem matches_func (hv : v.isFunction)
    (h : ∀ j, j < k → ∀ z z', Below Γ j z z' → Refines Γ j (v.applied z) (.expr e ((p, z') :: ρ))) :
    Matches Γ k v (.expr (func p [] e) ρ) := by
  refine (matches_function hv).mpr ⟨fun u hu => ?_, fun j hj z z' hz => (h j hj z z' hz).same ?_⟩
  · obtain rfl := gives_ret.mp hu
    exact Or.inl rfl
  · intro w
    simp [Evals, next, nextExpr]

/-- A name above that stands for something. -/
theorem Below.sym (h : Below Γ k x x') (hp : ρ.lookup p = some x') :
    Below Γ k x (.expr (.sym p) ρ) :=
  h.same (Same.symm (.of_of (by simp [next, nextExpr, hp])))

theorem Below.call (hx : Below Γ k x (.expr f ρ)) (hz : Below Γ k z (.expr e ρ)) :
    Below Γ k (.apply x z) (.expr (.call f [e]) ρ) :=
  (hx.apply hz).same (same_call f e ρ).symm

theorem Refines.call (hx : Below Γ k x (.expr f ρ)) (hz : Below Γ k z (.expr e ρ)) :
    Refines Γ k (.of (.apply x z)) (.expr (.call f [e]) ρ) :=
  (Refines.of_below (hx.call hz)).mono (Nat.le_succ k)

/-! ### Elimination -/

/-- A function of three parameters in place of a combinator. -/
theorem ternary_stands {g : Ternary} {s : String}
    (h : ∀ k x x' y y' z z', Below Γ k x x' → Below Γ k y y' → Below Γ k z z' →
      Refines Γ k (Val.appliedTernary g x y z) (.expr e [(s, z'), (q, y'), (p, x')])) :
    Matches Γ k (.ternary g) (.expr (func p [] (func q [] (func s [] e))) []) := by
  refine matches_func rfl fun j _ x x' hx => refines_ret.mpr ?_
  refine matches_func rfl fun i hi y y' hy => refines_ret.mpr ?_
  refine matches_func rfl fun l hl z z' hz => ?_
  exact h l x x' y y' z z' (hx.mono (by omega)) (hy.mono (by omega)) hz

/-- The names of three parameters stand for the three arguments. -/
theorem lookup_three {x y z : String} (h : [x, y, z].Nodup) (u v w : Arg) :
    let ρ : Scope := [(z, w), (y, v), (x, u)]
    ρ.lookup x = some u ∧ ρ.lookup y = some v ∧ ρ.lookup z = some w := by
  simp only [List.nodup_cons, List.mem_cons, List.not_mem_nil, or_false, not_or] at h
  have hxy : (x == y) = false := beq_eq_false_iff_ne.mpr h.1.1
  have hxz : (x == z) = false := beq_eq_false_iff_ne.mpr h.1.2
  have hyz : (y == z) = false := beq_eq_false_iff_ne.mpr h.2.1
  simp [List.lookup_cons, hxy, hxz, hyz]

theorem ofPrim_stands (taken : List String) (next : Nat) (p : Prim) :
    Matches Γ k (.ofPrim p) (.expr (Lambda.ofPrim taken next p).1.toExpr []) := by
  have hnodup := (Lambda.ofPrim_eliminated taken next p).nodup
  have hprim := (ofPrim_matches (Γ := Γ) (k := k) p).same (y := .expr (prim p) []) (.of_next rfl)
  cases p with
  | i =>
      refine matches_func rfl fun j _ z z' hz => ?_
      exact (Refines.of_below (hz.sym (by simp))).mono (Nat.le_succ j)
  | b =>
      refine ternary_stands fun k x x' y y' z z' hx hy hz => ?_
      obtain ⟨hlx, hly, hlz⟩ := lookup_three hnodup x' y' z'
      exact .call (hx.sym hlx) (.call (hy.sym hly) (hz.sym hlz))
  | c =>
      refine ternary_stands fun k x x' y y' z z' hx hy hz => ?_
      obtain ⟨hlx, hly, hlz⟩ := lookup_three hnodup x' y' z'
      exact .call (.call (hx.sym hlx) (hz.sym hlz)) (hy.sym hly)
  | s =>
      refine ternary_stands fun k x x' y y' z z' hx hy hz => ?_
      obtain ⟨hlx, hly, hlz⟩ := lookup_three hnodup x' y' z'
      exact .call (.call (hx.sym hlx) (hz.sym hlz)) (.call (hy.sym hly) (hz.sym hlz))
  | t => exact (ofPrim_matches .t).same (.of_next rfl)
  | nil => exact (ofPrim_matches .nil).same (.of_next rfl)
  | _ => exact hprim

theorem eliminate_represents (taken : List String) (c : Code) (next : Nat) :
    Represents Γ (.code c) (.expr (Lambda.eliminate taken c next).1.toExpr []) := by
  induction c generalizing next with
  | int n => exact fun k => refines_ret.mpr (int_matches n (gives_ret.mpr rfl))
  | sym x => exact fun k => sameGlobals Γ _ x
  | prim p => exact fun k => refines_ret.mpr (ofPrim_stands taken next p)
  | ap f x ihf ihx => exact fun k => ((ihf next k).call (ihx _ k)).of_next rfl

/-- **Code is represented by the term without combinators.** -/
theorem ofCode_represents (c : Code) : Represents Γ (.code c) (.expr (Lambda.ofCode c).toExpr []) :=
  eliminate_represents c.symbols c 0

/-! ### Contraction -/

theorem mem_free_toExpr {t : Lambda} {y : String} : y ∈ t.toExpr.free ↔ y ∈ t.free := by
  induction t with
  | fn p body ih => simp [Lambda.toExpr, Expr.free, Lambda.free, ih]
  | ap f x ihf ihx => simp [Lambda.toExpr, Expr.free, freeAll, Lambda.free, ihf, ihx]
  | sym x => simp [Lambda.toExpr, Expr.free, Lambda.free]
  | int n => simp [Lambda.toExpr, Expr.free, Lambda.free]
  | prim p => cases p <;> simp [Lambda.toExpr, Expr.free, freeAll, Lambda.free]

/-- A body in which a name stands for an argument, and the body with the argument in its
place.  The argument is in the scope `σ`. -/
theorem fill_below {t a : Lambda} {σ : Scope} (hp : p ∉ t.binders)
    (hcap : ∀ q ∈ t.binders, q ∉ a.free)
    (harg : next Γ (.expr (sym p) ρ) = .of (.expr a.toExpr σ))
    (ha : ∀ y ∈ a.free, Below Γ k (.expr (sym y) σ) (.expr (sym y) ρ'))
    (ht : ∀ y ∈ t.free, y ≠ p → Below Γ k (.expr (sym y) ρ) (.expr (sym y) ρ')) :
    Below Γ k (.expr t.toExpr ρ) (.expr (t.fill [(p, a)]).toExpr ρ') := by
  induction t generalizing k ρ ρ' with
  | fn q body ih =>
      rw [Lambda.mem_binders_fn, not_or] at hp
      have hq := hcap q (Lambda.mem_binders_fn.mpr (Or.inl rfl))
      refine refines_ret.mpr (matches_func rfl fun j hj z z' hz => ?_)
      refine (Refines.of_below (ih hp.2 ?_ ?_ (fun y hy => ?_) fun y hy hyp => ?_)).mono
        (Nat.le_succ j)
      · exact fun s hs => hcap s (Lambda.mem_binders_fn.mpr (Or.inr hs))
      · exact (next_sym_ne hp.1).trans harg
      · have hyq : y ≠ q := fun he => hq (he ▸ hy)
        exact ((ha y hy).mono (Nat.le_of_lt hj)).same (.of_next (next_sym_ne hyq).symm)
      · refine below_sym_bind (ν := id) hz (fun he => he) fun hyq => ?_
        exact (ht y (Lambda.mem_free_fn.mpr ⟨hy, hyq⟩) hyp).mono (Nat.le_of_lt hj)
  | ap f x ihf ihx =>
      refine below_call (Below.call (ihf ?_ ?_ harg ha fun y hy => ?_) (ihx ?_ ?_ harg ha fun y hy => ?_))
      · exact fun h => hp (Lambda.mem_binders_ap.mpr (Or.inl h))
      · exact fun s hs => hcap s (Lambda.mem_binders_ap.mpr (Or.inl hs))
      · exact ht y (Lambda.mem_free_ap.mpr (Or.inl hy))
      · exact fun h => hp (Lambda.mem_binders_ap.mpr (Or.inr h))
      · exact fun s hs => hcap s (Lambda.mem_binders_ap.mpr (Or.inr hs))
      · exact ht y (Lambda.mem_free_ap.mpr (Or.inr hy))
  | sym y =>
      rw [Lambda.fill, Lambda.lookup_single]
      by_cases hy : y = p
      · subst hy
        rw [if_pos rfl, Lambda.toExpr, Below, harg]
        refine (Refines.of_below ?_).mono (Nat.le_succ k)
        exact Stands.refl a.toExpr k σ ρ' spares_nil fun y hy => ha y (mem_free_toExpr.mp hy)
      · rw [if_neg hy]
        exact ht y (by simp [Lambda.free]) hy
  | int n => exact Stands.refl _ k ρ ρ' spares_nil (by simp [Expr.free, Lambda.toExpr])
  | prim g =>
      refine Stands.refl _ k ρ ρ' spares_nil fun y hy => ?_
      simp [mem_free_toExpr, Lambda.free] at hy

theorem Contracts.stands {allowed : String → Lambda → Lambda → Prop} {t t' : Lambda}
    (h : Lambda.Contracts allowed t t') : Stands Γ [] id t.toExpr t'.toExpr := by
  induction h with
  | @redex p b a _ hp hcap =>
      intro k ρ ρ' _ hρ
      simp only [Lambda.toExpr, Expr.free, freeAll, List.append_nil, List.mem_append,
        List.mem_filter, mem_free_toExpr] at hρ
      refine below_call (below_beta (fill_below hp hcap next_sym_self (fun y hy => ?_) ?_))
      · exact hρ y (Or.inr hy)
      · intro y hy hyp
        rw [Below, next_sym_ne hyp]
        exact hρ y (Or.inl ⟨hy, by simpa using hyp⟩)
  | fn p _ ih => exact ih.func_one List.not_mem_nil
  | «fun» x _ ih => exact ih.call_one (.refl _)
  | arg f _ ih => exact (Stands.refl _).call_one ih

/-! ### Folding -/

theorem below_sym_self (h : Below Γ k z z') : Below Γ k (.expr (sym p) ((p, z) :: ρ)) z' := by
  rw [Below, next_sym_self]
  exact (Refines.of_below h).mono (Nat.le_succ k)

/-- A function that gives its argument back. -/
theorem below_second (h : ∀ k z z', Below Γ k z z' → Below Γ k (.expr e ((p, z) :: ρ)) z') :
    Below Γ k (.expr (func p [] e) ρ) (.ready .second) :=
  refines_ret.mpr (matches_ready rfl rfl fun j _ z z' hz => refines_of_apply (h j z z' hz) rfl)

/-- A function that gives the function that gives its argument back. -/
theorem matches_false (hv : v.isFunction) (h : ∀ j z, Refines Γ j (v.applied z) (.ready .second)) :
    Matches Γ k v (.expr (bool false) ρ) := by
  refine (matches_function hv).mpr ⟨fun u hu => ?_, fun j _ z z' _ => (h j z).same ?_⟩
  · exact Or.inr ⟨false, (gives_ret.mp hu).symm⟩
  · intro w
    simp [Evals, next, nextExpr]

/-- The shapes of false select their second argument. -/
theorem isFalse_stands {t : Lambda} (h : Folded.isFalse t) :
    Stands Γ [] id t.toExpr (bool false) := by
  rw [Folded.isFalse.eq_def] at h
  split at h
  · rename_i x y y₁ x₁ y₂
    simp only [Bool.and_eq_true, beq_iff_eq] at h
    obtain ⟨⟨rfl, rfl⟩, rfl⟩ := h
    intro k ρ ρ' _ _
    refine refines_ret.mpr (matches_false rfl fun j z => (Refines.of_below ?_).mono (Nat.le_succ j))
    refine below_second fun i w w' hw => below_call (below_apply
      (gives_of.mpr (evals_apply.mpr ⟨_, gives_ret.mpr rfl, gives_ret.mpr rfl⟩)) ?_)
    exact (Refines.of_below (below_sym_self hw)).mono (Nat.le_succ i)
  · rename_i x x₁
    obtain rfl := eq_of_beq h
    intro k ρ ρ' _ _
    refine below_call (below_apply (gives_ret.mpr rfl) (refines_ret.mpr (matches_false rfl ?_)))
    intro j z
    exact (Refines.of_below (below_second fun i w w' hw => below_sym_self hw)).mono (Nat.le_succ j)
  · exact absurd h Bool.false_ne_true

theorem equiv_cons {hd tl hd' tl' : Arg} (hx : Evals Γ x (.cons hd tl))
    (hy : Evals Γ y (.cons hd' tl')) (hhd : Equiv Γ hd hd') (htl : Equiv Γ tl tl') :
    Equiv Γ x y := by
  have hrep : ∀ {x y hd tl hd' tl' : Arg}, Evals Γ x (.cons hd tl) → Evals Γ y (.cons hd' tl') →
      Represents Γ hd hd' → Represents Γ tl tl' → Represents Γ x y := by
    intro x y hd tl hd' tl' hx hy hhd htl k
    refine refines_iff.mpr fun c v _ hv => ?_
    obtain rfl := hx.unique ⟨c, hv⟩
    exact ⟨hd', tl', hy, fun j _ => ⟨hhd j, htl j⟩⟩
  exact ⟨hrep hx hy hhd.1 htl.1, hrep hy hx hhd.2 htl.2⟩

/-- A cell in front of a list literal is a longer list literal. -/
theorem covers_cons (h : Expr) (items : List Expr) (ρ : Scope) :
    Covers Γ (.expr (.call (.call (prim .cons) [h]) [list items]) ρ) (.expr (list (h :: items)) ρ) := by
  have hcell : Evals Γ (.expr (.call (.call (prim .cons) [h]) [list items]) ρ)
      (.cons (.expr h ρ) (.expr (list items) ρ)) := by
    simp [Evals, next, nextExpr, ByName.applyAll, Val.ofPrim, Val.appliedBinary, Binary.operator?]
  have hlist : Evals Γ (.expr (list (h :: items)) ρ)
      (.cons (.expr h ρ) (.ready (listVal ρ items))) := gives_ret.mpr rfl
  exact (equiv_cons hcell hlist (.refl _) (Same.equiv (.of_next rfl))).covers

theorem apply_stands {F X : Folded} (hf : Stands Γ names ν f F.toExpr)
    (hx : Stands Γ names ν e X.toExpr) :
    Stands Γ names ν (.call f [e]) (Folded.apply F X).toExpr := by
  rw [Folded.apply.eq_def]
  split
  · rename_i hd tl
    exact (hf.call_one hx).covers fun ρ _ => covers_cons hd.toExpr _ ρ
  · exact hf.call_one hx

/-- **A term is represented by the folded term.** -/
theorem ofLambda_stands (t : Lambda) : Stands Γ [] id t.toExpr (Folded.ofLambda t).toExpr := by
  induction t with
  | fn p body ih =>
      rw [Folded.ofLambda]
      split
      · exact isFalse_stands ‹_›
      · exact ih.func_one List.not_mem_nil
  | ap f x ihf ihx =>
      rw [Folded.ofLambda]
      split
      · exact isFalse_stands ‹_›
      · exact apply_stands ihf ihx
  | sym x => exact .sym x
  | int n => exact .int n
  | prim p => cases p <;> exact .refl _

end ByName

end Decombinator
