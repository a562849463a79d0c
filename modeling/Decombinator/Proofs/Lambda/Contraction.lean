/-
Contracting redexes without capture and without copying.

Both passes of shrinking do one thing over and over: they replace a function applied to an
argument by the function's body with the argument at each use of the parameter.  They do
it only where that copies nothing but atoms, and in a hygienic term nothing is captured
by it.  `Contracts` is one such replacement, anywhere in a term.  What shrinking keeps is
what one contraction keeps:

  * hygiene, since no binder is copied and no free name appears;
  * the exact set of free names, in a term whose functions all use their parameter;
  * that all functions use their parameter.
-/
import Decombinator.Proofs.Lambda.Names
import Mathlib.Logic.Relation

namespace Decombinator.Lambda

/-- A parameter `p` that the body `b` uses at most once. -/
def Affine (p : String) (b _a : Lambda) : Prop :=
  b.count p ≤ 1

/-- An argument `a` that may be copied. -/
def Atomic (_p : String) (_b a : Lambda) : Prop :=
  a.isAtom

/-- The redexes that can be contracted without copying anything but atoms. -/
def Cheap (p : String) (b a : Lambda) : Prop :=
  Affine p b a ∨ Atomic p b a

/-- One redex, of a kind that is allowed, contracted somewhere in a term.  The argument is
put in place as it is, which is only right where the body binds neither the parameter nor
a free name of the argument. -/
inductive Contracts (allowed : String → Lambda → Lambda → Prop) : Lambda → Lambda → Prop
  | redex {p : String} {b a : Lambda} (hallowed : allowed p b a) (hp : p ∉ b.binders)
      (hcap : ∀ q ∈ b.binders, q ∉ a.free) :
      Contracts allowed (ap (fn p b) a) (fill [(p, a)] b)
  | fn (p : String) {b b' : Lambda} (h : Contracts allowed b b') :
      Contracts allowed (fn p b) (fn p b')
  | fun {f f' : Lambda} (x : Lambda) (h : Contracts allowed f f') :
      Contracts allowed (ap f x) (ap f' x)
  | arg (f : Lambda) {x x' : Lambda} (h : Contracts allowed x x') :
      Contracts allowed (ap f x) (ap f x')

/-- Any number of contractions, one after another. -/
abbrev Reduces (allowed : String → Lambda → Lambda → Prop) : Lambda → Lambda → Prop :=
  Relation.ReflTransGen (Contracts allowed)

variable {allowed allowed' : String → Lambda → Lambda → Prop} {t t' f f' x x' b b' : Lambda}

/-- One term is another, or a part of it. -/
inductive Part (u : Lambda) : Lambda → Prop
  | refl : Part u u
  | body (p : String) {b : Lambda} (h : Part u b) : Part u (fn p b)
  | function {f : Lambda} (x : Lambda) (h : Part u f) : Part u (ap f x)
  | argument (f : Lambda) {x : Lambda} (h : Part u x) : Part u (ap f x)

/-! ### Reduction inside a term -/

theorem Contracts.mono (hle : ∀ p b a, allowed p b a → allowed' p b a)
    (h : Contracts allowed t t') : Contracts allowed' t t' := by
  induction h with
  | redex hallowed hp hcap => exact .redex (hle _ _ _ hallowed) hp hcap
  | fn p _ ih => exact .fn p ih
  | «fun» x _ ih => exact .fun x ih
  | arg f _ ih => exact .arg f ih

theorem Reduces.mono (hle : ∀ p b a, allowed p b a → allowed' p b a)
    (h : Reduces allowed t t') : Reduces allowed' t t' :=
  Relation.ReflTransGen.mono (fun _ _ => Contracts.mono hle) _ _ h

theorem Reduces.fn (p : String) (h : Reduces allowed b b') :
    Reduces allowed (fn p b) (fn p b') :=
  Relation.ReflTransGen.lift (Lambda.fn p) (fun _ _ => Contracts.fn p) _ _ h

theorem Reduces.ap (hf : Reduces allowed f f') (hx : Reduces allowed x x') :
    Reduces allowed (ap f x) (ap f' x') :=
  Relation.ReflTransGen.trans
    (Relation.ReflTransGen.lift (Lambda.ap · x) (fun _ _ => Contracts.fun x) _ _ hf)
    (Relation.ReflTransGen.lift (Lambda.ap f') (fun _ _ => Contracts.arg f') _ _ hx)

/-- What every contraction keeps, every sequence of them keeps. -/
theorem Reduces.preserves {P : Lambda → Prop} (hstep : ∀ {t t'}, Contracts allowed t t' → P t → P t')
    (h : Reduces allowed t t') (ht : P t) : P t' := by
  induction h with
  | refl => exact ht
  | tail _ hlast ih => exact hstep hlast ih

/-! ### Parts of a term -/

theorem Part.trans {u v : Lambda} (h : Part u v) (h' : Part v t) : Part u t := by
  induction h' with
  | refl => exact h
  | body p _ ih => exact .body p ih
  | function x _ ih => exact .function x ih
  | argument f _ ih => exact .argument f ih

theorem Part.count_binders_le {u : Lambda} (h : Part u t) (z : String) :
    u.binders.count z ≤ t.binders.count z := by
  induction h with
  | refl => exact Nat.le_refl _
  | body p _ ih => rw [count_binders_fn]; omega
  | function x _ ih => rw [count_binders_ap]; omega
  | argument f _ ih => rw [count_binders_ap]; omega

theorem Part.mem_binders {u : Lambda} {z : String} (h : Part u t) (hz : z ∈ u.binders) :
    z ∈ t.binders :=
  List.count_pos_iff.mp (Nat.lt_of_lt_of_le (List.count_pos_iff.mpr hz) (h.count_binders_le z))

/-- In a hygienic term all uses of a parameter are in the body of its function. -/
theorem Part.count_eq {p : String} (h : Part (fn p b) t) (hy : t.Hygienic) :
    t.count p = b.count p := by
  induction h with
  | refl => rfl
  | body q _ ih => exact ih hy.under
  | @function f x hpart ih =>
      have hp : p ∈ f.binders := hpart.mem_binders (mem_binders_fn.mpr (Or.inl rfl))
      have hx : x.count p = 0 := by
        refine count_eq_zero (fun hfree => ?_) fun hmem => ?_
        · exact hy.unfree p (mem_binders_ap.mpr (Or.inl hp)) (mem_free_ap.mpr (Or.inr hfree))
        · exact (List.nodup_append.mp hy.distinct).2.2 p hp p hmem rfl
      simp only [count, hx, ih hy.left, Nat.add_zero]
  | @argument f x hpart ih =>
      have hp : p ∈ x.binders := hpart.mem_binders (mem_binders_fn.mpr (Or.inl rfl))
      have hf : f.count p = 0 := by
        refine count_eq_zero (fun hfree => ?_) fun hmem => ?_
        · exact hy.unfree p (mem_binders_ap.mpr (Or.inr hp)) (mem_free_ap.mpr (Or.inl hfree))
        · exact (List.nodup_append.mp hy.distinct).2.2 p hmem p hp rfl
      simp only [count, hf, ih hy.right, Nat.zero_add]

/-! ### What one contraction does to the names -/

theorem total_single (μ : Lambda → Nat) (p : String) (a : Lambda) :
    Bindings.total μ [(p, a)] = μ a := by
  simp [Bindings.total]

/-- Contracting affine redexes only moves things, so no additive measure grows. -/
theorem Contracts.measure_le {μ : Lambda → Nat} (hμ : Additive μ) (h : Contracts Affine t t') :
    μ t' ≤ μ t := by
  induction h with
  | @redex p b a haffine _ _ =>
      obtain ⟨k, hk⟩ := hμ.ap
      obtain ⟨j, hj⟩ := hμ.fn p
      have hle := fill_measure hμ b [(p, a)] (by simpa [Affine] using haffine)
      rw [total_single] at hle
      rw [hk, hj]
      omega
  | fn p _ ih =>
      obtain ⟨j, hj⟩ := hμ.fn p
      rw [hj, hj]
      omega
  | «fun» x _ ih =>
      obtain ⟨k, hk⟩ := hμ.ap
      rw [hk, hk]
      omega
  | arg f _ ih =>
      obtain ⟨k, hk⟩ := hμ.ap
      rw [hk, hk]
      omega

theorem Reduces.measure_le {μ : Lambda → Nat} (hμ : Additive μ) (h : Reduces Affine t t') :
    μ t' ≤ μ t :=
  Reduces.preserves (P := fun u => μ u ≤ μ t) (fun hstep hu => Nat.le_trans (hstep.measure_le hμ) hu) h
    (Nat.le_refl _)

/-- Atoms bring no binders, so copying them adds none. -/
theorem atoms_single {p : String} {a : Lambda} (h : a.isAtom) :
    ∀ b ∈ [(p, a)], b.2.isAtom := by
  simpa using h

theorem Contracts.count_binders_le (h : Contracts Cheap t t') (z : String) :
    t'.binders.count z ≤ t.binders.count z := by
  induction h with
  | @redex p b a hcheap _ _ =>
      rw [count_binders_ap, count_binders_fn]
      rcases hcheap with haffine | hatom
      · have hle := fill_measure (additive_binders z) b [(p, a)] (by simpa [Affine] using haffine)
        rw [total_single] at hle
        omega
      · rw [binders_fill_of_atoms (atoms_single hatom)]
        omega
  | fn p _ ih => rw [count_binders_fn, count_binders_fn]; omega
  | «fun» x _ ih => rw [count_binders_ap, count_binders_ap]; omega
  | arg f _ ih => rw [count_binders_ap, count_binders_ap]; omega

/-- No free name appears. -/
theorem Contracts.mem_free (h : Contracts allowed t t') {z : String} (hz : z ∈ t'.free) :
    z ∈ t.free := by
  induction h with
  | redex _ hp hcap =>
      rw [mem_free_ap, mem_free_fn]
      rcases (mem_free_fill_single hp hcap).mp hz with hb | ⟨-, ha⟩
      · exact Or.inl hb
      · exact Or.inr ha
  | fn p _ ih =>
      rw [mem_free_fn] at hz ⊢
      exact ⟨ih hz.1, hz.2⟩
  | «fun» x _ ih =>
      rw [mem_free_ap] at hz ⊢
      exact hz.imp_left ih
  | arg f _ ih =>
      rw [mem_free_ap] at hz ⊢
      exact hz.imp_right ih

theorem Contracts.hygienic (h : Contracts Cheap t t') (ht : t.Hygienic) : t'.Hygienic :=
  Hygiene.mono ht h.count_binders_le fun _ => h.mem_free

theorem Reduces.count_binders_le (h : Reduces Cheap t t') (z : String) :
    t'.binders.count z ≤ t.binders.count z :=
  Reduces.preserves (P := fun u => u.binders.count z ≤ t.binders.count z)
    (fun hstep hu => Nat.le_trans (hstep.count_binders_le z) hu) h (Nat.le_refl _)

theorem Reduces.mem_free (h : Reduces allowed t t') {z : String} (hz : z ∈ t'.free) : z ∈ t.free :=
  Reduces.preserves (P := fun u => ∀ z ∈ u.free, z ∈ t.free)
    (fun hstep hu z hz => hu z (hstep.mem_free hz)) h (fun _ hz => hz) z hz

theorem Reduces.hygienic (h : Reduces Cheap t t') (ht : t.Hygienic) : t'.Hygienic :=
  Reduces.preserves (fun hstep => hstep.hygienic) h ht

/-! ### Terms whose functions all use their parameter

Contracting a function that ignores its parameter loses the free names of the argument.
No combinator does that, and contraction never makes a function that does.
-/

/-- Every function uses its parameter. -/
def Relevant : Lambda → Prop
  | fn p body => p ∈ body.free ∧ body.Relevant
  | ap f x => f.Relevant ∧ x.Relevant
  | sym _ | int _ | prim _ => True

theorem relevant_fill_single {p : String} {a : Lambda} (ha : a.Relevant) :
    ∀ {b : Lambda}, p ∉ b.binders → (∀ q ∈ b.binders, q ∉ a.free) → b.Relevant →
      (fill [(p, a)] b).Relevant := by
  intro b
  induction b with
  | fn q body ih =>
      intro hp hcap hb
      rw [mem_binders_fn, not_or] at hp
      have hcap' : ∀ r ∈ body.binders, r ∉ a.free := fun r hr =>
        hcap r (mem_binders_fn.mpr (Or.inr hr))
      refine ⟨?_, ih hp.2 hcap' hb.2⟩
      exact (mem_free_fill_single hp.2 hcap').mpr (Or.inl ⟨hb.1, fun he => hp.1 he.symm⟩)
  | ap f x ihf ihx =>
      intro hp hcap hb
      rw [mem_binders_ap, not_or] at hp
      exact ⟨ihf hp.1 (fun r hr => hcap r (mem_binders_ap.mpr (Or.inl hr))) hb.1,
        ihx hp.2 (fun r hr => hcap r (mem_binders_ap.mpr (Or.inr hr))) hb.2⟩
  | sym y =>
      intro _ _ _
      rw [fill, lookup_single]
      split
      · exact ha
      · trivial
  | int n => intro _ _ _; trivial
  | prim q => intro _ _ _; trivial

/-- **A contraction in a relevant term keeps every free name.** -/
theorem Contracts.mem_free_of_relevant (h : Contracts allowed t t') (ht : t.Relevant) {z : String}
    (hz : z ∈ t.free) : z ∈ t'.free := by
  induction h with
  | redex _ hp hcap =>
      rw [mem_free_ap, mem_free_fn] at hz
      exact (mem_free_fill_single hp hcap).mpr (hz.imp_right fun ha => ⟨ht.1.1, ha⟩)
  | fn p _ ih =>
      rw [mem_free_fn] at hz ⊢
      exact ⟨ih ht.2 hz.1, hz.2⟩
  | «fun» x _ ih =>
      rw [mem_free_ap] at hz ⊢
      exact hz.imp_left (ih ht.1)
  | arg f _ ih =>
      rw [mem_free_ap] at hz ⊢
      exact hz.imp_right (ih ht.2)

theorem Contracts.relevant (h : Contracts allowed t t') (ht : t.Relevant) : t'.Relevant := by
  induction h with
  | redex _ hp hcap => exact relevant_fill_single ht.2 hp hcap ht.1.2
  | fn p hbody ih => exact ⟨hbody.mem_free_of_relevant ht.2 ht.1, ih ht.2⟩
  | «fun» x _ ih => exact ⟨ih ht.1, ht.2⟩
  | arg f _ ih => exact ⟨ht.1, ih ht.2⟩

theorem Reduces.relevant (h : Reduces allowed t t') (ht : t.Relevant) : t'.Relevant :=
  Reduces.preserves (fun hstep => hstep.relevant) h ht

theorem Reduces.mem_free_of_relevant (h : Reduces allowed t t') (ht : t.Relevant) {z : String}
    (hz : z ∈ t.free) : z ∈ t'.free :=
  (Reduces.preserves (P := fun u => u.Relevant ∧ z ∈ u.free)
    (fun hstep hu => ⟨hstep.relevant hu.1, hstep.mem_free_of_relevant hu.1 hu.2⟩) h ⟨ht, hz⟩).2

end Decombinator.Lambda
