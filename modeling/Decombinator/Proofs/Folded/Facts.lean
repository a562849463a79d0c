/-
Telling terms apart that are not beta equivalent.

A congruence with symmetry and transitivity says when terms are equivalent, but not when
they are not.  What is needed is something that equivalent terms have in common.  Here it
is the set of facts that hold of a term, where a fact is a finite piece of how a function
answers: given an argument of which some facts are known, another fact is known of the
result.  A function is the set of its finite pieces, so an application can only use
finitely many facts of its argument, and that is all that makes the beta rule hold.

Integers have the facts that they are given, free symbols those of an environment, and
lists and constants none.
-/
import Decombinator.Proofs.Folded.Beta
import Mathlib.Data.Set.Basic

namespace Decombinator.Folded

/-- Something that may be known of a term. -/
inductive Fact
  /-- A bare mark, of no consequence for applications. -/
  | mark
  /-- Applied to what has all of `inputs`, it has `out`. -/
  | maps (inputs : List Fact) (out : Fact)

namespace Fact

variable (ints : Int64 → Set Fact)

/-- The facts that hold of a term. -/
def of (ρ : String → Set Fact) : Folded → Set Fact
  | fn p b => {c | ∃ inputs out, c = maps inputs out ∧ out ∈ of (Function.update ρ p {a | a ∈ inputs}) b}
  | ap f x => {c | ∃ inputs, maps inputs c ∈ of ρ f ∧ ∀ a ∈ inputs, a ∈ of ρ x}
  | sym x => ρ x
  | int n => ints n
  | list _ | prim _ | falsity => ∅

variable {ints} {ρ ρ' : String → Set Fact} {t u : Folded} {c : Fact} {p : String}

theorem mem_of_fn {b : Folded} :
    c ∈ of ints ρ (fn p b) ↔
      ∃ inputs out, c = maps inputs out ∧ out ∈ of ints (Function.update ρ p {a | a ∈ inputs}) b :=
  Iff.rfl

theorem mem_of_ap {f x : Folded} :
    c ∈ of ints ρ (ap f x) ↔ ∃ inputs, maps inputs c ∈ of ints ρ f ∧ ∀ a ∈ inputs, a ∈ of ints ρ x :=
  Iff.rfl

/-! ### Environments -/

theorem update_subset {X X' : Set Fact} (hX : X ⊆ X') {free : List String}
    (h : ∀ x ∈ free, x ≠ p → ρ x ⊆ ρ' x) :
    ∀ x ∈ free, Function.update ρ p X x ⊆ Function.update ρ' p X' x := by
  intro x hx
  by_cases hxp : x = p
  · subst hxp
    rwa [Function.update_self, Function.update_self]
  · rw [Function.update_of_ne hxp, Function.update_of_ne hxp]
    exact h x hx hxp

/-- More facts of the free symbols give more facts of the term. -/
theorem of_mono (h : ∀ x ∈ t.free, ρ x ⊆ ρ' x) : of ints ρ t ⊆ of ints ρ' t := by
  induction t generalizing ρ ρ' with
  | fn p b ih =>
      rintro c ⟨inputs, out, rfl, hout⟩
      refine ⟨inputs, out, rfl, ih (update_subset subset_rfl fun x hx hxp => ?_) hout⟩
      exact h x (mem_free_fn.mpr ⟨hx, hxp⟩)
  | ap f x ihf ihx =>
      rintro c ⟨inputs, hf, hx⟩
      refine ⟨inputs, ihf (fun y hy => h y (mem_free_ap.mpr (Or.inl hy))) hf, fun a ha => ?_⟩
      exact ihx (fun y hy => h y (mem_free_ap.mpr (Or.inr hy))) (hx a ha)
  | sym x => exact h x (by simp [free])
  | list items => exact subset_rfl
  | int n => exact subset_rfl
  | prim p => exact subset_rfl
  | falsity => exact subset_rfl

theorem of_congr (h : ∀ x ∈ t.free, ρ x = ρ' x) : of ints ρ t = of ints ρ' t :=
  Set.Subset.antisymm (of_mono fun x hx => (h x hx).subset) (of_mono fun x hx => (h x hx).superset)

theorem of_update_mono {X X' : Set Fact} (hX : X ⊆ X') :
    of ints (Function.update ρ p X) t ⊆ of ints (Function.update ρ p X') t :=
  of_mono (update_subset hX fun _ _ _ => subset_rfl)

/-- Finitely many facts, each of which takes finitely many inputs, take finitely many. -/
theorem exists_inputs {X : Set Fact} {facts : List Fact}
    (h : ∀ c ∈ facts, ∃ inputs : List Fact, (∀ a ∈ inputs, a ∈ X) ∧
      c ∈ of ints (Function.update ρ p {a | a ∈ inputs}) t) :
    ∃ inputs : List Fact, (∀ a ∈ inputs, a ∈ X) ∧
      ∀ c ∈ facts, c ∈ of ints (Function.update ρ p {a | a ∈ inputs}) t := by
  induction facts with
  | nil => exact ⟨[], by simp, by simp⟩
  | cons c facts ih =>
      obtain ⟨inputs, hinputs, hc⟩ := h c (by simp)
      obtain ⟨inputs', hinputs', hfacts⟩ := ih fun a ha => h a (List.mem_cons_of_mem _ ha)
      refine ⟨inputs ++ inputs', fun a ha => ?_, fun a ha => ?_⟩
      · exact (List.mem_append.mp ha).elim (hinputs a) (hinputs' a)
      · rcases List.mem_cons.mp ha with rfl | ha
        · refine of_update_mono (fun b hb => ?_) hc
          exact List.mem_append_left _ hb
        · refine of_update_mono (fun b hb => ?_) (hfacts a ha)
          exact List.mem_append_right _ hb

/-- A fact of a term takes finitely many facts of a symbol. -/
theorem of_finite {X : Set Fact} (h : c ∈ of ints (Function.update ρ p X) t) :
    ∃ inputs : List Fact, (∀ a ∈ inputs, a ∈ X) ∧
      c ∈ of ints (Function.update ρ p {a | a ∈ inputs}) t := by
  induction t generalizing ρ c with
  | fn q b ih =>
      obtain ⟨known, out, rfl, hout⟩ := h
      by_cases hqp : q = p
      · subst hqp
        refine ⟨[], by simp, known, out, rfl, ?_⟩
        rwa [Function.update_idem] at hout ⊢
      · rw [Function.update_comm (Ne.symm hqp)] at hout
        obtain ⟨inputs, hinputs, hout⟩ := ih hout
        refine ⟨inputs, hinputs, known, out, rfl, ?_⟩
        rwa [Function.update_comm (Ne.symm hqp)]
  | ap f x ihf ihx =>
      obtain ⟨known, hf, hx⟩ := h
      obtain ⟨inputs, hinputs, hf⟩ := ihf hf
      obtain ⟨inputs', hinputs', hx⟩ := exists_inputs fun a ha => ihx (hx a ha)
      refine ⟨inputs ++ inputs', fun a ha => ?_, known, ?_, fun a ha => ?_⟩
      · exact (List.mem_append.mp ha).elim (hinputs a) (hinputs' a)
      · refine of_update_mono (fun b hb => ?_) hf
        exact List.mem_append_left _ hb
      · refine of_update_mono (fun b hb => ?_) (hx a ha)
        exact List.mem_append_right _ hb
  | sym x =>
      by_cases hxp : x = p
      · subst hxp
        rw [of, Function.update_self] at h
        exact ⟨[c], by simpa using h, by simp [of]⟩
      · rw [of, Function.update_of_ne hxp] at h
        exact ⟨[], by simp, by rwa [of, Function.update_of_ne hxp]⟩
  | list items => exact absurd h (Set.notMem_empty c)
  | int n => exact ⟨[], by simp, h⟩
  | prim q => exact absurd h (Set.notMem_empty c)
  | falsity => exact absurd h (Set.notMem_empty c)

/-! ### Beta equivalence -/

/-- What has the facts of a function, when applied, has the facts of the function's body, where
the parameter has those of the argument. -/
theorem of_apply {f a b : Folded} (hf : of ints ρ f = of ints ρ' (fn p b)) :
    of ints ρ (ap f a) = of ints (Function.update ρ' p (of ints ρ a)) b := by
  refine Set.Subset.antisymm ?_ fun c hc => ?_
  · intro c hc
    obtain ⟨inputs, hmaps, ha⟩ := mem_of_ap.mp hc
    rw [hf] at hmaps
    obtain ⟨known, out, heq, hout⟩ := mem_of_fn.mp hmaps
    obtain ⟨rfl, rfl⟩ := Fact.maps.inj heq
    exact of_update_mono (fun a h => ha a h) hout
  · obtain ⟨inputs, hinputs, hc⟩ := of_finite hc
    refine mem_of_ap.mpr ⟨inputs, ?_, hinputs⟩
    rw [hf]
    exact mem_of_fn.mpr ⟨inputs, c, rfl, hc⟩

theorem of_redex (p : String) (b a : Folded) :
    of ints ρ (ap (fn p b) a) = of ints (Function.update ρ p (of ints ρ a)) b :=
  of_apply rfl

/-- Facts of a substituted term are facts of the term, where each symbol has those of its
image. -/
theorem of_subst (t : Folded) :
    ∀ (ρ : String → Set Fact) (σ : String → Folded),
      of ints ρ (subst σ t) = of ints (fun x => of ints ρ (σ x)) t := by
  induction t with
  | fn p b ih =>
      intro ρ σ
      have hsafe := safeParam_notMem σ p b
      rw [subst]
      -- Below the binder both sides give the parameter the same facts, and its new name is
      -- free in none of the other images.
      have hbody : ∀ inputs : List Fact,
          of ints (Function.update ρ (safeParam σ p b) {a | a ∈ inputs})
            (subst (Function.update σ p (sym (safeParam σ p b))) b) =
          of ints (Function.update (fun x => of ints ρ (σ x)) p {a | a ∈ inputs}) b := by
        intro inputs
        rw [ih]
        refine of_congr fun x hx => ?_
        by_cases hxp : x = p
        · subst hxp
          rw [Function.update_self, Function.update_self, of, Function.update_self]
        · rw [Function.update_of_ne hxp, Function.update_of_ne hxp]
          refine of_congr fun y hy => Function.update_of_ne (fun he => hsafe ?_) _ _
          exact mem_imageNames.mpr ⟨x, mem_free_fn.mpr ⟨hx, hxp⟩, he ▸ hy⟩
      ext c
      simp only [mem_of_fn, hbody]
  | ap f x ihf ihx =>
      intro ρ σ
      ext c
      simp only [subst, mem_of_ap, ihf, ihx]
  | sym x => intro ρ σ; rfl
  | list items => intro ρ σ; rfl
  | int n => intro ρ σ; rfl
  | prim p => intro ρ σ; rfl
  | falsity => intro ρ σ; rfl

/-- **The same facts hold of beta equivalent terms.** -/
theorem of_betaEquiv (h : BetaEquiv t u) : ∀ ρ, of ints ρ t = of ints ρ u := by
  induction h with
  | redex p b a =>
      intro ρ
      rw [of_redex, of_subst]
      congr 1
      ext1 x
      by_cases hx : x = p
      · rw [hx, Function.update_self, Function.update_self]
      · rw [Function.update_of_ne hx, Function.update_of_ne hx, of]
  | refl t => exact fun _ => rfl
  | symm _ ih => exact fun ρ => (ih ρ).symm
  | trans _ _ ih ih' => exact fun ρ => (ih ρ).trans (ih' ρ)
  | fn p _ ih =>
      intro ρ
      ext c
      simp only [mem_of_fn, ih]
  | ap _ _ ihf ihx =>
      intro ρ
      ext c
      simp only [mem_of_ap, ihf, ihx]
  | item before after _ _ => exact fun _ => rfl

end Fact

end Decombinator.Folded
