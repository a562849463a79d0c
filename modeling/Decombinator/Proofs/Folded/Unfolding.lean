/-
Folding is complete and loses nothing.

A folded term can be unfolded again: a list literal is a chain of `cons` that ends in `nil`, and
false is a term of either of its two shapes, with some names for its parameters.  `Unfolds` relates
a folded term to what it stands for in this way.  In a complete term nothing is left to fold: at no
depth is there a `nil`, a `cons` of an element in front of a list literal, or a shape of false.

Of the terms that unfold to a given one, exactly one is complete, and folding finds it.  That false
is looked for before the parts of a term are folded, and lists after that, makes no difference: a
term is folded to an application, a function, a symbol or a primitive only if it was one before, so
folding its parts neither hides a shape of false nor makes one.
-/
import Decombinator.Proofs.Folded

namespace Decombinator

/-! ### The shapes of false -/

/-- `λx. λy. (t y) (x y)`. -/
def Lambda.falseFn (x y : String) : Lambda :=
  .fn x (.fn y (.ap (.ap (.prim .t) (.sym y)) (.ap (.sym x) (.sym y))))

/-- `t (λx. x)`. -/
def Lambda.falseAp (x : String) : Lambda :=
  .ap (.prim .t) (.fn x (.sym x))

namespace Folded

theorem isFalse_iff {t : Lambda} :
    isFalse t ↔ (∃ x y, t = Lambda.falseFn x y) ∨ ∃ x, t = Lambda.falseAp x := by
  constructor
  · intro h
    rw [isFalse.eq_def] at h
    split at h
    · simp only [Bool.and_eq_true, beq_iff_eq] at h
      obtain ⟨⟨rfl, rfl⟩, rfl⟩ := h
      exact Or.inl ⟨_, _, rfl⟩
    · obtain rfl := eq_of_beq h
      exact Or.inr ⟨_, rfl⟩
    · exact absurd h Bool.false_ne_true
  · rintro (⟨x, y, rfl⟩ | ⟨x, rfl⟩)
    · simp [Lambda.falseFn, isFalse]
    · simp [Lambda.falseAp, isFalse]

/-! ### Unfolding -/

/-- What a folded term stands for. -/
inductive Unfolds : Folded → Lambda → Prop
  | fn (p : String) {b : Folded} {u : Lambda} (h : Unfolds b u) : Unfolds (fn p b) (.fn p u)
  | ap {f x : Folded} {g y : Lambda} (hf : Unfolds f g) (hx : Unfolds x y) :
      Unfolds (ap f x) (.ap g y)
  | sym (x : String) : Unfolds (sym x) (.sym x)
  | int (n : Int64) : Unfolds (int n) (.int n)
  | prim (p : Prim) : Unfolds (prim p) (.prim p)
  | nil : Unfolds (list []) (.prim .nil)
  | cons {t : Folded} {ts : List Folded} {u us : Lambda} (ht : Unfolds t u)
      (hts : Unfolds (list ts) us) : Unfolds (list (t :: ts)) (.ap (.ap (.prim .cons) u) us)
  | falseFn (x y : String) : Unfolds falsity (Lambda.falseFn x y)
  | falseAp (x : String) : Unfolds falsity (Lambda.falseAp x)

theorem Unfolds.of_isFalse {t : Lambda} (h : isFalse t) : Unfolds falsity t := by
  rcases isFalse_iff.mp h with ⟨x, y, rfl⟩ | ⟨x, rfl⟩
  · exact .falseFn x y
  · exact .falseAp x

theorem Unfolds.apply {f x : Folded} {g y : Lambda} (hf : Unfolds f g) (hx : Unfolds x y) :
    Unfolds (apply f x) (.ap g y) := by
  rw [apply.eq_def]
  split
  · cases hf with
    | ap hcons hhead =>
        cases hcons
        exact .cons hhead hx
  · exact .ap hf hx

theorem Unfolds.ofPrim (p : Prim) : Unfolds (ofPrim p) (.prim p) := by
  cases p with
  | nil => exact .nil
  | _ => exact .prim _

/-- Folding loses nothing. -/
theorem unfolds_ofLambda (t : Lambda) : Unfolds (ofLambda t) t := by
  induction t with
  | fn p body ih =>
      rw [ofLambda]
      split
      · exact .of_isFalse ‹_›
      · exact .fn p ih
  | ap f x ihf ihx =>
      rw [ofLambda]
      split
      · exact .of_isFalse ‹_›
      · exact ihf.apply ihx
  | sym x => exact .sym x
  | int n => exact .int n
  | prim p => exact .ofPrim p

/-! ### Complete terms -/

/-- What is still to be folded. -/
inductive Unfinished : Folded → Prop
  | nil : Unfinished (prim .nil)
  | cons (head : Folded) (tail : List Folded) : Unfinished (ap (ap (prim .cons) head) (list tail))
  | falseFn (x y : String) :
      Unfinished (fn x (fn y (ap (ap (prim .t) (sym y)) (ap (sym x) (sym y)))))
  | falseAp (x : String) : Unfinished (ap (prim .t) (fn x (sym x)))

/-- Nothing is left to fold, at any depth. -/
def Complete (u : Folded) : Prop :=
  ∀ v, Part v u → ¬ Unfinished v

theorem eq_prim_of_ofLambda {t : Lambda} {p : Prim} (h : ofLambda t = prim p) :
    t = .prim p ∧ p ≠ .nil := by
  cases t with
  | prim q =>
      cases q with
      | nil => cases h
      | _ =>
          cases h
          exact ⟨rfl, by decide⟩
  | fn q b =>
      rw [ofLambda] at h
      split at h <;> cases h
  | ap f y =>
      rw [ofLambda] at h
      split at h
      · cases h
      · rw [apply.eq_def] at h
        split at h <;> cases h
  | sym y => cases h
  | int n => cases h

/-- No term is folded to something that is still to be folded. -/
theorem not_unfinished_ofLambda (t : Lambda) : ¬ Unfinished (ofLambda t) := by
  intro h
  generalize hu : ofLambda t = u at h
  cases h with
  | nil => exact (eq_prim_of_ofLambda hu).2 rfl
  | cons head tail =>
      obtain ⟨g, y, rfl, hg, hy⟩ := ap_of_ofLambda hu
      rw [ofLambda, hg, hy] at hu
      split at hu <;> cases hu
  | falseFn x y =>
      have ht : t = Lambda.falseFn x y := by
        obtain ⟨t₁, rfl, h₁⟩ := fn_of_ofLambda hu
        obtain ⟨t₂, rfl, h₂⟩ := fn_of_ofLambda h₁
        obtain ⟨t₃, u₃, rfl, h₃, hu₃⟩ := ap_of_ofLambda h₂
        obtain ⟨t₄, u₄, rfl, h₄, hu₄⟩ := ap_of_ofLambda h₃
        obtain ⟨t₅, u₅, rfl, h₅, hu₅⟩ := ap_of_ofLambda hu₃
        rw [(eq_prim_of_ofLambda h₄).1, eq_sym_of_ofLambda hu₄, eq_sym_of_ofLambda h₅,
          eq_sym_of_ofLambda hu₅, Lambda.falseFn]
      rw [ht, ofLambda_of_isFalse (isFalse_iff.mpr (Or.inl ⟨x, y, rfl⟩))] at hu
      cases hu
  | falseAp x =>
      have ht : t = Lambda.falseAp x := by
        obtain ⟨t₁, u₁, rfl, h₁, hu₁⟩ := ap_of_ofLambda hu
        obtain ⟨t₂, rfl, h₂⟩ := fn_of_ofLambda hu₁
        rw [(eq_prim_of_ofLambda h₁).1, eq_sym_of_ofLambda h₂, Lambda.falseAp]
      rw [ht, ofLambda_of_isFalse (isFalse_iff.mpr (Or.inr ⟨x, rfl⟩))] at hu
      cases hu

/-- Folding leaves nothing to fold. -/
theorem complete_ofLambda (t : Lambda) : (ofLambda t).Complete := by
  intro v hv
  obtain ⟨s, -, rfl⟩ := exists_part_of_ofLambda hv
  exact not_unfinished_ofLambda s

/-! ### There is one complete term -/

section Complete

variable {p : String} {b f x t : Folded} {ts : List Folded}

theorem Complete.body (h : (fn p b).Complete) : b.Complete :=
  fun v hv => h v (.body p hv)

theorem Complete.function (h : (ap f x).Complete) : f.Complete :=
  fun v hv => h v (.function x hv)

theorem Complete.argument (h : (ap f x).Complete) : x.Complete :=
  fun v hv => h v (.argument f hv)

theorem Complete.head (h : (list (t :: ts)).Complete) : t.Complete :=
  fun v hv => h v (.item List.mem_cons_self hv)

theorem Complete.tail (h : (list (t :: ts)).Complete) : (list ts).Complete := by
  intro v hv hunfinished
  cases hv with
  | refl => cases hunfinished
  | item ht hv => exact h v (.item (List.mem_cons_of_mem _ ht) hv) hunfinished

/-- In a complete term, no application puts an element in front of a list literal. -/
theorem Complete.apply_eq (h : (ap f x).Complete) : apply f x = ap f x := by
  rw [apply.eq_def]
  split
  · exact absurd (Unfinished.cons _ _) (h _ .refl)
  · rfl

end Complete

theorem eq_ofLambda_of_complete {u : Folded} {t : Lambda} (h : Unfolds u t) (hu : u.Complete) :
    u = ofLambda t := by
  induction h with
  | @fn p b t _ ih =>
      obtain rfl := ih hu.body
      rw [ofLambda]
      split
      · rename_i hfalse
        -- The body of such a function is itself no false, so it was folded part by part.
        rcases isFalse_iff.mp hfalse with ⟨x, y, heq⟩ | ⟨x, heq⟩
        · obtain ⟨rfl, rfl⟩ := Lambda.fn.inj heq
          exact absurd (Unfinished.falseFn p y) (hu _ .refl)
        · cases heq
      · rfl
  | @ap f x g y _ _ ihf ihx =>
      obtain rfl := ihf hu.function
      obtain rfl := ihx hu.argument
      rw [ofLambda]
      split
      · rename_i hfalse
        rcases isFalse_iff.mp hfalse with ⟨x, y, heq⟩ | ⟨x, heq⟩
        · cases heq
        · obtain ⟨rfl, rfl⟩ := Lambda.ap.inj heq
          exact absurd (Unfinished.falseAp x) (hu _ .refl)
      · exact hu.apply_eq.symm
  | sym x => rfl
  | int n => rfl
  | prim p =>
      cases p with
      | nil => exact absurd Unfinished.nil (hu _ .refl)
      | _ => rfl
  | nil => rfl
  | cons _ _ iht ihts =>
      rw [ofLambda, ofLambda, ← iht hu.head, ← ihts hu.tail]
      rfl
  | falseFn x y => exact (ofLambda_of_isFalse (isFalse_iff.mpr (Or.inl ⟨x, y, rfl⟩))).symm
  | falseAp x => exact (ofLambda_of_isFalse (isFalse_iff.mpr (Or.inr ⟨x, rfl⟩))).symm

/-- **Folding is complete and loses nothing.**  A term is what its folded form unfolds to, nothing
is left to fold in that form at any depth, and no other form is like that. -/
theorem ofLambda_unfolds_complete (t : Lambda) :
    Unfolds (ofLambda t) t ∧ (ofLambda t).Complete ∧
      ∀ u, Unfolds u t → u.Complete → u = ofLambda t :=
  ⟨unfolds_ofLambda t, complete_ofLambda t, fun _ => eq_ofLambda_of_complete⟩

end Folded

end Decombinator
