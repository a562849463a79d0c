/-
Beta equivalence of folded terms.

Substitution is the textbook one, as for lambda terms: all symbols at once, and a parameter
that would capture a free name of what is put in place is renamed first.  List literals and
constants have no rules of their own, so beta equivalence is the congruence that the one
rule for functions generates.

The one law that is needed beyond the congruence is that a parameter may be moved out of a
redex, if the redex's argument does not use it.
-/
import Decombinator.Proofs.Folded
import Decombinator.Proofs.Fresh
import Mathlib.Data.List.Forall2
import Mathlib.Logic.Function.Basic

namespace Decombinator.Folded

/-! ### Capture-avoiding substitution -/

/-- The names that are free in what the free symbols of a term become. -/
def imageNames (σ : String → Folded) (t : Folded) : List String :=
  t.free.flatMap fun x => (σ x).free

/-- The parameter that a function gets: its own, unless that would capture something. -/
def safeParam (σ : String → Folded) (p : String) (body : Folded) : String :=
  let taken := imageNames σ (fn p body)
  if p ∈ taken then Fresh.numbered "x" (Fresh.firstFree "x" taken 0) else p

mutual

/-- Replaces free symbols, renaming parameters where it must. -/
def subst (σ : String → Folded) : Folded → Folded
  | fn p body =>
    let q := safeParam σ p body
    fn q (subst (Function.update σ p (sym q)) body)
  | ap f x => ap (subst σ f) (subst σ x)
  | list items => list (substAll σ items)
  | sym x => σ x
  | int n => int n
  | prim p => prim p
  | falsity => falsity

def substAll (σ : String → Folded) : List Folded → List Folded
  | [] => []
  | t :: ts => subst σ t :: substAll σ ts

end

theorem mem_free_fn {p z : String} {body : Folded} :
    z ∈ (fn p body).free ↔ z ∈ body.free ∧ z ≠ p := by
  simp [free]

theorem mem_free_ap {f x : Folded} {z : String} : z ∈ (ap f x).free ↔ z ∈ f.free ∨ z ∈ x.free := by
  simp [free]

theorem mem_free_list {items : List Folded} {z : String} :
    z ∈ (list items).free ↔ ∃ t ∈ items, z ∈ t.free := by
  rw [free]
  induction items with
  | nil => simp [freeAll]
  | cons t ts ih => simp [freeAll, ih]

theorem mem_imageNames {σ : String → Folded} {t : Folded} {z : String} :
    z ∈ imageNames σ t ↔ ∃ x ∈ t.free, z ∈ (σ x).free :=
  List.mem_flatMap

theorem safeParam_notMem (σ : String → Folded) (p : String) (body : Folded) :
    safeParam σ p body ∉ imageNames σ (fn p body) := by
  rw [safeParam]
  split
  · exact Fresh.firstFree_notMem _ _ _
  · assumption

/-- A parameter that captures nothing is kept. -/
theorem safeParam_eq {σ : String → Folded} {p : String} {body : Folded}
    (h : p ∉ imageNames σ (fn p body)) : safeParam σ p body = p := by
  rw [safeParam]
  exact if_neg h

/-! ### Beta equivalence -/

/-- The congruence that capture-avoiding beta reduction generates. -/
inductive BetaEquiv : Folded → Folded → Prop
  | redex (p : String) (b a : Folded) :
      BetaEquiv (ap (fn p b) a) (subst (Function.update sym p a) b)
  | refl (t : Folded) : BetaEquiv t t
  | symm {t u : Folded} (h : BetaEquiv t u) : BetaEquiv u t
  | trans {t u v : Folded} (h : BetaEquiv t u) (h' : BetaEquiv u v) : BetaEquiv t v
  | fn (p : String) {b b' : Folded} (h : BetaEquiv b b') : BetaEquiv (fn p b) (fn p b')
  | ap {f f' x x' : Folded} (hf : BetaEquiv f f') (hx : BetaEquiv x x') :
      BetaEquiv (ap f x) (ap f' x')
  | item (before after : List Folded) {t u : Folded} (h : BetaEquiv t u) :
      BetaEquiv (list (before ++ t :: after)) (list (before ++ u :: after))

namespace BetaEquiv

theorem list_append (before : List Folded) {ts us : List Folded} (h : List.Forall₂ BetaEquiv ts us) :
    BetaEquiv (list (before ++ ts)) (list (before ++ us)) := by
  induction h generalizing before with
  | nil => exact .refl _
  | @cons t u ts us htu _ ih =>
      have hrest := ih (before ++ [u])
      rw [List.append_assoc, List.append_assoc] at hrest
      exact (item before ts htu).trans hrest

/-- Lists of equivalent items are equivalent. -/
theorem list {ts us : List Folded} (h : List.Forall₂ BetaEquiv ts us) :
    BetaEquiv (list ts) (list us) :=
  list_append [] h

/-- A parameter moves out of a redex whose argument does not use it. -/
theorem fn_out {x q : String} {a : Folded} (hqx : q ≠ x) (hqa : q ∉ a.free) (d : Folded) :
    BetaEquiv (Folded.ap (Folded.fn x (Folded.fn q d)) a)
      (Folded.fn q (Folded.ap (Folded.fn x d) a)) := by
  -- Substituting below the parameter does not rename it, and leaves it alone.
  have hkept : safeParam (Function.update sym x a) q d = q := by
    refine safeParam_eq fun hmem => ?_
    obtain ⟨y, hy, hq⟩ := mem_imageNames.mp hmem
    by_cases hyx : y = x
    · rw [hyx, Function.update_self] at hq
      exact hqa hq
    · rw [Function.update_of_ne hyx, free, List.mem_singleton] at hq
      exact (mem_free_fn.mp hy).2 hq.symm
  have hself : Function.update (Function.update sym x a) q (sym q) = Function.update sym x a := by
    rw [Function.update_eq_self_iff, Function.update_of_ne hqx]
  have hleft : BetaEquiv (Folded.ap (Folded.fn x (Folded.fn q d)) a)
      (Folded.fn q (subst (Function.update sym x a) d)) := by
    have hredex := redex x (Folded.fn q d) a
    rwa [subst, hkept, hself] at hredex
  exact hleft.trans (.fn q (.symm (redex x d a)))

end BetaEquiv

end Decombinator.Folded
