/-
Folding keeps the names of a term.

Both shapes of false are closed, and what they bind is dropped with them.  A list literal
has the names of its elements.  So a folded term has the free names of the term it came
from, and none but its binders.
-/
import Decombinator.Folded
import Decombinator.Proofs.Lambda.Contraction

namespace Decombinator.Folded

/-- Induction over folded terms, with the items of a list. -/
@[elab_as_elim, induction_eliminator]
theorem induction_terms {motive : Folded → Prop} (fn : ∀ p body, motive body → motive (fn p body))
    (ap : ∀ f x, motive f → motive x → motive (ap f x))
    (list : ∀ items, (∀ t ∈ items, motive t) → motive (list items)) (sym : ∀ x, motive (sym x))
    (int : ∀ n, motive (int n)) (prim : ∀ p, motive (prim p)) (falsity : motive falsity)
    (t : Folded) : motive t :=
  @Folded.rec motive (fun ts => ∀ t ∈ ts, motive t) fn ap list sym int prim falsity
    (fun _ h => absurd h List.not_mem_nil)
    (fun _ _ hhead htail _ h => (List.mem_cons.mp h).elim (fun he => he ▸ hhead) (htail _)) t

mutual

/-- The names that are used where nothing binds them. -/
def free : Folded → List String
  | fn p body => body.free.filter (· ≠ p)
  | ap f x => f.free ++ x.free
  | list items => freeAll items
  | sym x => [x]
  | int _ | prim _ | falsity => []

def freeAll : List Folded → List String
  | [] => []
  | t :: ts => t.free ++ freeAll ts

end

mutual

/-- The names in binding positions. -/
def binders : Folded → List String
  | fn p body => p :: body.binders
  | ap f x => f.binders ++ x.binders
  | list items => bindersAll items
  | sym _ | int _ | prim _ | falsity => []

def bindersAll : List Folded → List String
  | [] => []
  | t :: ts => t.binders ++ bindersAll ts

end

def Hygienic (t : Folded) : Prop :=
  Hygiene t.binders t.free

/-- One term is another, or a part of it. -/
inductive Part (u : Folded) : Folded → Prop
  | refl : Part u u
  | body (p : String) {b : Folded} (h : Part u b) : Part u (fn p b)
  | function {f : Folded} (x : Folded) (h : Part u f) : Part u (ap f x)
  | argument (f : Folded) {x : Folded} (h : Part u x) : Part u (ap f x)
  | item {t : Folded} {items : List Folded} (ht : t ∈ items) (h : Part u t) : Part u (list items)

/-- A conjunction that asks for its second operand first, `λv. λp. p v p`. -/
def flipped (v p : String) : Folded :=
  fn v (fn p (ap (ap (sym p) (sym v)) (sym p)))

/-! ### Names -/

theorem apply_retains (f x : Folded) :
    Retains (f.binders ++ x.binders) (f.free ++ x.free) (apply f x).binders (apply f x).free := by
  rw [apply.eq_def]
  split
  · exact ⟨by simp [binders, bindersAll], by simp [free, freeAll]⟩
  · exact .refl _ _

/-- The shapes of false are closed. -/
theorem free_of_isFalse {t : Lambda} (h : isFalse t) : t.free = [] := by
  rw [isFalse.eq_def] at h
  split at h
  · simp only [Bool.and_eq_true, beq_iff_eq] at h
    obtain ⟨⟨rfl, rfl⟩, rfl⟩ := h
    simp [Lambda.free]
  · have hx := eq_of_beq h
    simp [Lambda.free, hx]
  · exact absurd h Bool.false_ne_true

theorem falsity_retains {t : Lambda} (h : isFalse t) :
    Retains t.binders t.free falsity.binders falsity.free :=
  ⟨fun z => Nat.zero_le _, fun z => by rw [free_of_isFalse h]; rfl⟩

/-- **Folding keeps the names of a term.** -/
theorem ofLambda_retains (t : Lambda) :
    Retains t.binders t.free (ofLambda t).binders (ofLambda t).free := by
  induction t with
  | fn p body ih =>
      rw [ofLambda]
      split
      · exact falsity_retains ‹_›
      · exact ih.under p
  | ap f x ihf ihx =>
      rw [ofLambda]
      split
      · exact falsity_retains ‹_›
      · exact (ihf.append ihx).trans (apply_retains _ _)
  | sym x => exact .refl _ _
  | int n => exact .refl _ _
  | prim p => cases p <;> exact .refl _ _

/-! ### Parts -/

theorem eq_sym_of_ofLambda {t : Lambda} {x : String} (h : ofLambda t = sym x) : t = .sym x := by
  cases t with
  | sym y => exact congrArg Lambda.sym (Folded.sym.inj h)
  | fn p b =>
      rw [ofLambda] at h
      split at h <;> cases h
  | ap f y =>
      rw [ofLambda] at h
      split at h
      · cases h
      · rw [apply.eq_def] at h
        split at h <;> cases h
  | int n => cases h
  | prim p => cases p <;> cases h

theorem fn_of_ofLambda {t : Lambda} {p : String} {b : Folded} (h : ofLambda t = fn p b) :
    ∃ u, t = .fn p u ∧ ofLambda u = b := by
  cases t with
  | fn q u =>
      rw [ofLambda] at h
      split at h
      · cases h
      · obtain ⟨rfl, hu⟩ := Folded.fn.inj h
        exact ⟨u, rfl, hu⟩
  | ap f y =>
      rw [ofLambda] at h
      split at h
      · cases h
      · rw [apply.eq_def] at h
        split at h <;> cases h
  | sym y => cases h
  | int n => cases h
  | prim p => cases p <;> cases h

theorem ap_of_ofLambda {t : Lambda} {f x : Folded} (h : ofLambda t = ap f x) :
    ∃ g y, t = .ap g y ∧ ofLambda g = f ∧ ofLambda y = x := by
  cases t with
  | fn q u =>
      rw [ofLambda] at h
      split at h <;> cases h
  | ap g y =>
      rw [ofLambda] at h
      split at h
      · cases h
      · rw [apply.eq_def] at h
        split at h
        · cases h
        · obtain ⟨hg, hy⟩ := Folded.ap.inj h
          exact ⟨g, y, rfl, hg, hy⟩
  | sym y => cases h
  | int n => cases h
  | prim p => cases p <;> cases h

/-- The parts of what an application became are parts of the application. -/
theorem Part.of_apply {u f x : Folded} (h : Part u (apply f x)) :
    u = apply f x ∨ Part u f ∨ Part u x := by
  rw [apply.eq_def] at h ⊢
  split at h
  · cases h with
    | refl => exact Or.inl rfl
    | item ht h =>
        rcases List.mem_cons.mp ht with rfl | ht
        · exact Or.inr (Or.inl (.argument _ h))
        · exact Or.inr (Or.inr (.item ht h))
  · cases h with
    | refl => exact Or.inl rfl
    | function _ h => exact Or.inr (Or.inl h)
    | argument _ h => exact Or.inr (Or.inr h)

theorem ofLambda_of_isFalse {t : Lambda} (h : isFalse t) : ofLambda t = falsity := by
  cases t with
  | fn p body => rw [ofLambda, if_pos h]
  | ap f x => rw [ofLambda, if_pos h]
  | _ => cases h

/-- The parts of a folded term are what parts were folded to. -/
theorem exists_part_of_ofLambda {t : Lambda} {u : Folded} (h : Part u (ofLambda t)) :
    ∃ s, Lambda.Part s t ∧ ofLambda s = u := by
  induction t with
  | fn p b ih =>
      by_cases hfalse : isFalse (.fn p b)
      · rw [ofLambda_of_isFalse hfalse] at h
        cases h
        exact ⟨_, .refl, ofLambda_of_isFalse hfalse⟩
      · have heq : ofLambda (.fn p b) = fn p (ofLambda b) := by rw [ofLambda, if_neg hfalse]
        rw [heq] at h
        cases h with
        | refl => exact ⟨_, .refl, heq⟩
        | body _ h =>
            obtain ⟨s, hpart, hs⟩ := ih h
            exact ⟨s, .body p hpart, hs⟩
  | ap f x ihf ihx =>
      by_cases hfalse : isFalse (.ap f x)
      · rw [ofLambda_of_isFalse hfalse] at h
        cases h
        exact ⟨_, .refl, ofLambda_of_isFalse hfalse⟩
      · have heq : ofLambda (.ap f x) = apply (ofLambda f) (ofLambda x) := by
          rw [ofLambda, if_neg hfalse]
        rw [heq] at h
        rcases h.of_apply with rfl | h | h
        · exact ⟨_, .refl, heq⟩
        · obtain ⟨s, hpart, hs⟩ := ihf h
          exact ⟨s, .function x hpart, hs⟩
        · obtain ⟨s, hpart, hs⟩ := ihx h
          exact ⟨s, .argument f hpart, hs⟩
  | sym y =>
      cases h
      exact ⟨_, .refl, rfl⟩
  | int n =>
      cases h
      exact ⟨_, .refl, rfl⟩
  | prim p =>
      cases p with
      | nil =>
          cases h with
          | refl => exact ⟨_, .refl, rfl⟩
          | item ht => cases ht
      | _ =>
          cases h
          exact ⟨_, .refl, rfl⟩

/-- An application in a folded term was one before. -/
theorem part_of_ofLambda {t : Lambda} {f x : Folded} (h : Part (ap f x) (ofLambda t)) :
    ∃ g y, Lambda.Part (.ap g y) t ∧ ofLambda g = f ∧ ofLambda y = x := by
  obtain ⟨s, hpart, hs⟩ := exists_part_of_ofLambda h
  obtain ⟨g, y, rfl, hgy⟩ := ap_of_ofLambda hs
  exact ⟨g, y, hpart, hgy⟩

theorem eq_of_ofLambda_flipped {t : Lambda} {v p : String} (h : ofLambda t = flipped v p) :
    t = .fn v (.fn p (.ap (.ap (.sym p) (.sym v)) (.sym p))) := by
  obtain ⟨t₁, rfl, h₁⟩ := fn_of_ofLambda h
  obtain ⟨t₂, rfl, h₂⟩ := fn_of_ofLambda h₁
  obtain ⟨t₃, u₃, rfl, h₃, hu₃⟩ := ap_of_ofLambda h₂
  obtain ⟨t₄, u₄, rfl, h₄, hu₄⟩ := ap_of_ofLambda h₃
  rw [eq_sym_of_ofLambda h₄, eq_sym_of_ofLambda hu₄, eq_sym_of_ofLambda hu₃]

/-- Folding a term without linear redexes leaves no flipped conjunction that is applied. -/
theorem not_part_flipped {t : Lambda} (hy : t.Hygienic)
    (hlinear : ∀ p b a, Lambda.Part (.ap (.fn p b) a) t → b.count p ≠ 1) (v p : String) (x : Folded) :
    ¬ Part (ap (flipped v p) x) (ofLambda t) := by
  intro h
  obtain ⟨g, y, hpart, hg, -⟩ := part_of_ofLambda h
  rw [eq_of_ofLambda_flipped hg] at hpart
  have hvp : p ≠ v := fun he => by
    have hle := hpart.count_binders_le v
    have hone := hy.count_le_one v
    simp only [Lambda.binders, he, List.count_cons, List.count_append, beq_self_eq_true, if_true] at hle
    omega
  exact hlinear _ _ _ hpart (by simp [Lambda.count, hvp])

end Decombinator.Folded
