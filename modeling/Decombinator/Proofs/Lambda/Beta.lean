/-
Beta equivalence, and why shrinking keeps to it.

Substitution here is the textbook one: all symbols at once, and a parameter that would
capture a free name of what is put in place is renamed first.  `mem_free_subst` says that it
captures nothing.  Where no renaming is needed it is textual replacement, and in a
hygienic term none ever is, so the contractions of shrinking are beta steps.
-/
import Decombinator.Proofs.Fresh
import Decombinator.Proofs.Lambda.Shrink

namespace Decombinator.Lambda

/-! ### Capture-avoiding substitution -/

/-- What a symbol becomes. -/
def image (σ : Bindings) (x : String) : Lambda :=
  (σ.lookup x).getD (sym x)

/-- The names that are free in what the free symbols of a term become. -/
def imageNames (σ : Bindings) (t : Lambda) : List String :=
  t.free.flatMap fun x => (image σ x).free

/-- The parameter that a function gets: its own, unless that would capture something. -/
def safeParam (σ : Bindings) (p : String) (body : Lambda) : String :=
  let taken := imageNames σ (fn p body)
  if p ∈ taken then Fresh.numbered "x" (Fresh.firstFree "x" taken 0) else p

/-- Replaces free symbols, renaming parameters where it must. -/
def subst (σ : Bindings) : Lambda → Lambda
  | fn p body =>
    let q := safeParam σ p body
    fn q (subst ((p, sym q) :: σ) body)
  | ap f x => ap (subst σ f) (subst σ x)
  | sym x => image σ x
  | int n => int n
  | prim p => prim p

theorem mem_imageNames {σ : Bindings} {t : Lambda} {z : String} :
    z ∈ imageNames σ t ↔ ∃ x ∈ t.free, z ∈ (image σ x).free :=
  List.mem_flatMap

theorem safeParam_notMem (σ : Bindings) (p : String) (body : Lambda) :
    safeParam σ p body ∉ imageNames σ (fn p body) := by
  rw [safeParam]
  split
  · exact Fresh.firstFree_notMem _ _ _
  · assumption

theorem image_cons (σ : Bindings) (p : String) (a : Lambda) (x : String) :
    image ((p, a) :: σ) x = if x = p then a else image σ x := by
  rw [image, List.lookup_cons]
  by_cases h : x = p
  · simp [h]
  · have hne : (x == p) = false := by simpa using h
    simp [h, hne, image]

/-- **Substitution captures nothing**: what is free in the result is what is free in the
images of the free symbols. -/
theorem mem_free_subst {z : String} {t : Lambda} :
    ∀ {σ : Bindings}, z ∈ (subst σ t).free ↔ z ∈ imageNames σ t := by
  induction t with
  | fn p body ih =>
      intro σ
      rw [subst, mem_free_fn, ih, mem_imageNames, mem_imageNames]
      constructor
      · rintro ⟨⟨x, hx, hz⟩, hne⟩
        rw [image_cons] at hz
        by_cases hxp : x = p
        · rw [if_pos hxp] at hz
          exact absurd (by simpa [free] using hz) hne
        · rw [if_neg hxp] at hz
          exact ⟨x, mem_free_fn.mpr ⟨hx, hxp⟩, hz⟩
      · rintro ⟨x, hx, hz⟩
        have hsafe := safeParam_notMem σ p body
        refine ⟨⟨x, (mem_free_fn.mp hx).1, ?_⟩, fun he => ?_⟩
        · rw [image_cons, if_neg (mem_free_fn.mp hx).2]
          exact hz
        · rw [← he, mem_imageNames] at hsafe
          exact hsafe ⟨x, hx, hz⟩
  | ap f x ihf ihx =>
      intro σ
      rw [subst, mem_free_ap, ihf, ihx]
      simp [imageNames, free]
  | sym y => intro σ; simp [subst, imageNames, free]
  | int n => intro σ; simp [subst, imageNames, free]
  | prim p => intro σ; simp [subst, imageNames, free]

/-- Substituting one symbol is replacing it, where nothing in the term binds it or captures
anything. -/
theorem subst_eq_fill {p : String} {a b : Lambda} :
    ∀ {σ : Bindings}, p ∉ b.binders → (∀ q ∈ b.binders, q ∉ a.free) →
      (∀ x ∈ b.free, image σ x = if x = p then a else sym x) → subst σ b = fill [(p, a)] b := by
  induction b with
  | fn q body ih =>
      intro σ hp hcap hσ
      rw [mem_binders_fn, not_or] at hp
      have hkept : safeParam σ q body = q := by
        rw [safeParam]
        refine if_neg fun hmem => ?_
        obtain ⟨x, hx, hq⟩ := mem_imageNames.mp hmem
        rw [hσ x hx] at hq
        split at hq
        · exact hcap q (mem_binders_fn.mpr (Or.inl rfl)) hq
        · have hqx : q = x := by simpa [free] using hq
          exact (mem_free_fn.mp hx).2 hqx.symm
      simp only [subst, fill, hkept]
      rw [ih hp.2 fun r hr => hcap r (mem_binders_fn.mpr (Or.inr hr))]
      intro x hx
      rw [image_cons]
      by_cases hxq : x = q
      · have hxp : x ≠ p := fun he => hp.1 (he.symm.trans hxq)
        rw [if_pos hxq, if_neg hxp, hxq]
      · rw [if_neg hxq]
        exact hσ x (mem_free_fn.mpr ⟨hx, hxq⟩)
  | ap f x ihf ihx =>
      intro σ hp hcap hσ
      rw [mem_binders_ap, not_or] at hp
      rw [subst, fill,
        ihf hp.1 (fun r hr => hcap r (mem_binders_ap.mpr (Or.inl hr)))
          (fun y hy => hσ y (mem_free_ap.mpr (Or.inl hy))),
        ihx hp.2 (fun r hr => hcap r (mem_binders_ap.mpr (Or.inr hr)))
          (fun y hy => hσ y (mem_free_ap.mpr (Or.inr hy)))]
  | sym y =>
      intro σ _ _ hσ
      rw [subst, fill, hσ y (by simp [free]), lookup_single]
      split <;> rfl
  | int n => intro σ _ _ _; rfl
  | prim q => intro σ _ _ _; rfl

/-! ### Beta equivalence -/

/-- The congruence that capture-avoiding beta reduction generates. -/
inductive BetaEquiv : Lambda → Lambda → Prop
  | redex (p : String) (b a : Lambda) : BetaEquiv (ap (fn p b) a) (subst [(p, a)] b)
  | refl (t : Lambda) : BetaEquiv t t
  | symm {t u : Lambda} (h : BetaEquiv t u) : BetaEquiv u t
  | trans {t u v : Lambda} (h : BetaEquiv t u) (h' : BetaEquiv u v) : BetaEquiv t v
  | fn (p : String) {b b' : Lambda} (h : BetaEquiv b b') : BetaEquiv (fn p b) (fn p b')
  | ap {f f' x x' : Lambda} (hf : BetaEquiv f f') (hx : BetaEquiv x x') :
      BetaEquiv (ap f x) (ap f' x')

variable {allowed : String → Lambda → Lambda → Prop} {t t' : Lambda}

theorem Contracts.betaEquiv (h : Contracts allowed t t') : BetaEquiv t t' := by
  induction h with
  | @redex p b a _ hp hcap =>
      have hsubst : subst [(p, a)] b = fill [(p, a)] b := by
        refine subst_eq_fill hp hcap fun x _ => ?_
        rw [image_cons]
        rfl
      rw [← hsubst]
      exact .redex p b a
  | fn p _ ih => exact .fn p ih
  | «fun» x _ ih => exact .ap ih (.refl x)
  | arg f _ ih => exact .ap (.refl f) ih

theorem Reduces.betaEquiv (h : Reduces allowed t t') : BetaEquiv t t' := by
  induction h with
  | refl => exact .refl t
  | tail _ hlast ih => exact .trans ih hlast.betaEquiv

/-- **Shrinking is sound**: a hygienic term and what it shrinks to are beta equivalent. -/
theorem shrink_betaEquiv (t : Lambda) (h : t.Hygienic) : BetaEquiv t.shrink t :=
  .symm (shrink_reduces h).betaEquiv

/-- `(λq. (λp. p p) q q) z`, where no parameter is linear. -/
theorem shrink_betaEquiv_aliases :
    let t : Lambda := ap (fn "q" (ap (ap (fn "p" (ap (sym "p") (sym "p"))) (sym "q")) (sym "q"))) (sym "z")
    t.Hygienic ∧ t.shrink = ap (ap (sym "z") (sym "z")) (sym "z") ∧ BetaEquiv t.shrink t := by
  intro t
  have h : t.Hygienic := ⟨by simp [t, binders], by simp [t, binders, free]⟩
  exact ⟨h, by decide, shrink_betaEquiv t h⟩

end Decombinator.Lambda
