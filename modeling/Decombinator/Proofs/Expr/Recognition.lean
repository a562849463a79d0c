/-
Which terms are read as a call, a function, or a conjunction.

Reading a term forgets its shape where an idiom is recognised, but not everywhere: only a
symbol is read as a symbol, only an application as a call, only a function as a function.
This is enough to see the one term that is read as a conjunction although it asks for the
second operand first.
-/
import Decombinator.Proofs.Expr.Idioms

namespace Decombinator.Expr

variable {dict : Dictionary} {lists : List String} {f x e a b : Expr} {p v : String}

theorem recognise_fn (dict : Dictionary) (p : String) (t : Folded) (lists : List String) :
    Abstraction p (recognise dict t lists).1 (recognise dict (.fn p t) lists).1 :=
  abstract_abstraction p _

theorem recognise_ap (dict : Dictionary) {t u : Folded} (lists : List String) (hy : t.Hygienic)
    (hempty : "" ∉ t.binders) :
    ∃ before after, Reading dict after (recognise dict t lists).1 (recognise dict u before).1
      (recognise dict (.ap t u) lists).1 :=
  ⟨(recognise dict t lists).2, (recognise dict u (recognise dict t lists).2).2,
    applyTo_reading dict _ _ _ fun h => hempty ((recognise_retains t lists hy hempty).mem_binders h)⟩

theorem Abstraction.shape (h : Abstraction p a e) : (∃ q ps b, e = func q ps b) ∨ ∃ c, e = .not c := by
  cases h with
  | plain => exact Or.inl ⟨_, _, _, rfl⟩
  | more => exact Or.inl ⟨_, _, _, rfl⟩
  | not => exact Or.inr ⟨_, rfl⟩

theorem Reading.ne_func (h : Reading dict lists f x e) (q : String) (ps : List String) (b : Expr) :
    e ≠ func q ps b := by
  cases h <;> simp

theorem Reading.ne_sym (h : Reading dict lists f x e) (y : String) : e ≠ sym y := by
  cases h <;> simp

theorem Reading.of_call (h : Reading dict lists f x e) {g : Expr} {args : List Expr}
    (he : e = .call g args) :
    (f = g ∧ args = [x]) ∨ ∃ init, f = .call g init ∧ args = init ++ [x] := by
  cases h <;> simp_all

theorem Reading.of_letIn (h : Reading dict lists f x e) (he : e = letIn v a b) :
    takeParam f = some (v, b) := by
  cases h <;> simp_all

theorem Abstraction.of_func {q : String} {ps : List String} (h : Abstraction q a e)
    (he : e = func p ps b) :
    q = p ∧ ((ps = [] ∧ a = b) ∨ ∃ r rest, ps = r :: rest ∧ a = func r rest b) := by
  cases h <;> simp_all

/-- What is left of a function when its first parameter is taken away, if that is a
function. -/
theorem func_of_takeParam {q : String} (h : takeParam f = some (v, func q [] b)) :
    ∃ ps body, f = func v ps body ∧
      ((ps = [] ∧ body = func q [] b) ∨ (ps = [q] ∧ body = b)) := by
  rw [takeParam.eq_def] at h
  split at h
  · simp at h
  · simp_all
  · simp_all
  · cases h

section Inversion

variable {t : Folded} (hy : t.Hygienic) (hempty : "" ∉ t.binders)

include hy hempty

theorem eq_sym_of_recognise {y : String} (h : (recognise dict t lists).1 = sym y) : t = .sym y := by
  cases t with
  | sym x => exact congrArg Folded.sym (Expr.sym.inj h)
  | fn p t =>
      rcases (recognise_fn dict p t lists).shape with ⟨q, ps, b, he⟩ | ⟨c, he⟩
      · rw [he] at h; cases h
      · rw [he] at h; cases h
  | ap t u =>
      rw [Folded.binders, List.mem_append, not_or] at hempty
      obtain ⟨_, _, hread⟩ := recognise_ap (u := u) dict lists hy.left hempty.1
      exact absurd h (hread.ne_sym y)
  | prim p =>
      rw [recognise] at h
      split at h <;> cases h
  | _ => cases h

/-- A term read as a call is an application. -/
theorem ap_of_recognise_call {g : Expr} {args : List Expr}
    (h : (recognise dict t lists).1 = call g args) :
    ∃ f u before, t = .ap f u ∧ f.Hygienic ∧ u.Hygienic ∧ "" ∉ f.binders ∧ "" ∉ u.binders ∧
      ((recognise dict f lists).1 = g ∧ args = [(recognise dict u before).1] ∨
        ∃ init, (recognise dict f lists).1 = call g init ∧
          args = init ++ [(recognise dict u before).1]) := by
  cases t with
  | fn p t =>
      rcases (recognise_fn dict p t lists).shape with ⟨q, ps, b, he⟩ | ⟨c, he⟩
      · rw [he] at h; cases h
      · rw [he] at h; cases h
  | ap t u =>
      rw [Folded.binders, List.mem_append, not_or] at hempty
      obtain ⟨before, _, hread⟩ := recognise_ap (u := u) dict lists hy.left hempty.1
      exact ⟨t, u, before, rfl, hy.left, hy.right, hempty.1, hempty.2, hread.of_call h⟩
  | prim p =>
      rw [recognise] at h
      split at h <;> cases h
  | _ => cases h

theorem recognise_ne_call_nil {g : Expr} : (recognise dict t lists).1 ≠ call g [] := by
  intro h
  obtain ⟨f, u, before, -, -, -, -, -, ⟨-, h⟩ | ⟨init, -, h⟩⟩ := ap_of_recognise_call hy hempty h
  · cases h
  · simp at h

theorem eq_ap_of_recognise (h : (recognise dict t lists).1 = call (sym p) [sym v]) :
    t = .ap (.sym p) (.sym v) := by
  obtain ⟨f, u, before, rfl, hyf, hyu, hf, hu, hcase⟩ := ap_of_recognise_call hy hempty h
  rcases hcase with ⟨hfp, hargs⟩ | ⟨init, hcall, hargs⟩
  · have huv : (recognise dict u before).1 = sym v := by simpa using hargs.symm
    rw [eq_sym_of_recognise hyf hf hfp, eq_sym_of_recognise hyu hu huv]
  · cases init with
    | nil => exact absurd hcall (recognise_ne_call_nil hyf hf)
    | cons => simp at hargs

theorem eq_ap_ap_of_recognise (h : (recognise dict t lists).1 = call (sym p) [sym v, sym p]) :
    t = .ap (.ap (.sym p) (.sym v)) (.sym p) := by
  obtain ⟨f, u, before, rfl, hyf, hyu, hf, hu, hcase⟩ := ap_of_recognise_call hy hempty h
  rcases hcase with ⟨-, hargs⟩ | ⟨init, hcall, hargs⟩
  · simp at hargs
  · obtain ⟨rfl, huv⟩ : init = [sym v] ∧ (recognise dict u before).1 = sym p := by
      obtain ⟨hinit, hlast⟩ := List.append_inj'
        (show [sym v] ++ [sym p] = init ++ [(recognise dict u before).1] from hargs) rfl
      exact ⟨hinit.symm, by simpa using hlast.symm⟩
    rw [eq_ap_of_recognise hyf hf hcall, eq_sym_of_recognise hyu hu huv]

/-- A term read as a function is a function. -/
theorem fn_of_recognise_func {ps : List String} (h : (recognise dict t lists).1 = func p ps b) :
    ∃ u, t = .fn p u ∧ u.Hygienic ∧ "" ∉ u.binders ∧
      ((ps = [] ∧ (recognise dict u lists).1 = b) ∨
        ∃ q rest, ps = q :: rest ∧ (recognise dict u lists).1 = func q rest b) := by
  cases t with
  | fn q u =>
      obtain ⟨rfl, hparts⟩ := (recognise_fn dict q u lists).of_func h
      rw [Folded.binders, List.mem_cons, not_or] at hempty
      exact ⟨u, rfl, hy.under, hempty.2, hparts⟩
  | ap t u =>
      rw [Folded.binders, List.mem_append, not_or] at hempty
      obtain ⟨_, _, hread⟩ := recognise_ap (u := u) dict lists hy.left hempty.1
      exact absurd h (hread.ne_func p ps b)
  | prim p =>
      rw [recognise] at h
      split at h <;> cases h
  | _ => cases h

/-- Nothing but `λv. λp. p v p` applied to a term is read as the flipped conjunction. -/
theorem eq_flipped_of_recognise {l : Expr}
    (h : (recognise dict t lists).1 = letIn v l (func p [] (call (sym p) [sym v, sym p]))) :
    ∃ u, t = .ap (.flipped v p) u := by
  cases t with
  | fn q u =>
      rcases (recognise_fn dict q u lists).shape with ⟨q, ps, b, he⟩ | ⟨c, he⟩
      · rw [he] at h; cases h
      · rw [he] at h; cases h
  | ap f u =>
      rw [Folded.binders, List.mem_append, not_or] at hempty
      obtain ⟨_, _, hread⟩ := recognise_ap (u := u) dict lists hy.left hempty.1
      obtain ⟨ps, body, hf, hparam⟩ := func_of_takeParam (hread.of_letIn h)
      obtain ⟨f₁, rfl, hy₁, hempty₁, hparts⟩ := fn_of_recognise_func hy.left hempty.1 hf
      have hf₁ : (recognise dict f₁ lists).1 = func p [] (call (sym p) [sym v, sym p]) := by
        rcases hparts with ⟨rfl, h₁⟩ | ⟨q, rest, rfl, h₁⟩
        · simp_all
        · simp_all
      obtain ⟨f₂, rfl, hy₂, hempty₂, ⟨-, hf₂⟩ | ⟨_, _, hps, -⟩⟩ :=
        fn_of_recognise_func hy₁ hempty₁ hf₁
      · rw [eq_ap_ap_of_recognise hy₂ hempty₂ hf₂]
        exact ⟨u, rfl⟩
      · cases hps
  | prim p =>
      rw [recognise] at h
      split at h <;> cases h
  | _ => cases h

end Inversion

end Decombinator.Expr
