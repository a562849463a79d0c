/-
Idioms mean what the applications mean that they stand for.

Most idioms are other ways to write an application.  Three need more than that.  A let that
is moved out of a function's way moves past names that are used neither in its value nor by
the argument.  The negation evaluates its test at once, where the function that it stands
for waits for both branches.  And the connectives evaluate their operands as booleans, so
that they stand only for applications of what has no other values.  What an operand's value is
depends on the global names, which no binder of a hygienic term hides.
-/
import Decombinator.Proofs.Expr.Connectives
import Decombinator.Proofs.Expr.Recognition
import Decombinator.Proofs.Meaning.Algebra
import Decombinator.Proofs.Meaning.Terms

namespace Decombinator.ByName

open Decombinator.Expr Machine

variable {Γ : Globals} {k : Nat} {v w : Val} {x y z g : Arg} {ρ : Scope} {p q : String}
  {names : List String} {e e' f a b l r test : Expr} {t : Bool}

/-! ### Booleans -/

/-- A computation that has no values but booleans. -/
def Boolean (Γ : Globals) (x : Arg) : Prop :=
  ∀ v, Evals Γ x v → ∃ b, v = .bool b

/-- A connective joins booleans.  Its right operand counts only if it is evaluated. -/
def Joins (Γ : Globals) (ρ : Scope) : Expr → Prop
  | binary .or l r => Boolean Γ (.expr l ρ) ∧
      (Evals Γ (.expr l ρ) (.bool false) → Boolean Γ (.expr r ρ))
  | binary .and l r => Boolean Γ (.expr l ρ) ∧
      (Evals Γ (.expr l ρ) (.bool true) → Boolean Γ (.expr r ρ))
  | _ => True

/-- All connectives of an expression join booleans, as long as `names` are the names of
globals.  Other names may stand for anything. -/
def Logical (Γ : Globals) (names : List String) (e : Expr) : Prop :=
  ∀ c ∈ e.connectives, ∀ ρ, Spares names ρ → Joins Γ ρ c

theorem bool_of_gives_truth (h : Gives Γ (.need x truth) v) : ∃ b, v = .bool b := by
  obtain ⟨c, hc⟩ := h
  obtain ⟨b, rfl, -⟩ := (Below.refl x).truth (Nat.le_refl c) hc
  exact ⟨b, rfl⟩

/-- A choice that was made was made by a boolean. -/
theorem truth_of_gives_branch {yes no : Next} (h : Gives Γ ((truthOf e ρ).bind (.branch yes no)) v) :
    ∃ t, Gives Γ (truthOf e ρ) (.bool t) ∧ Gives Γ (if t then yes else no) v := by
  obtain ⟨u, hu, hv⟩ := gives_bind.mp h
  obtain ⟨t, rfl⟩ := bool_of_gives_truth hu
  cases t <;> exact ⟨_, hu, hv⟩

theorem gives_branch_iff {yes no : Next} (h : Gives Γ (truthOf e ρ) (.bool t)) :
    Gives Γ ((truthOf e ρ).bind (.branch yes no)) v ↔ Gives Γ (if t then yes else no) v := by
  rw [gives_bind_iff h]
  cases t <;> rfl

/-- Booleans by form have no other values. -/
theorem boolean_of_onlyBooleans (h : e.onlyBooleans) : Boolean Γ (.expr e ρ) := by
  intro v hv
  induction e generalizing ρ with
  | bool b => exact ⟨b, (gives_ret.mp hv).symm⟩
  | cond a l r _ ihl ihr =>
      rw [onlyBooleans, Bool.and_eq_true] at h
      obtain ⟨t, -, hv⟩ := truth_of_gives_branch hv
      cases t with
      | true => exact ihl h.1 (gives_of.mp hv)
      | false => exact ihr h.2 (gives_of.mp hv)
  | letIn p l b _ ihb => exact ihb h (gives_of.mp hv)
  | not a =>
      obtain ⟨t, -, hv⟩ := truth_of_gives_branch hv
      cases t <;> exact ⟨_, (gives_ret.mp hv).symm⟩
  | isNil a =>
      obtain ⟨u, -, hv⟩ := gives_need.mp hv
      cases u with
      | nil => exact ⟨_, (gives_ret.mp hv).symm⟩
      | cons => exact ⟨_, (gives_ret.mp hv).symm⟩
      | _ => exact absurd hv not_gives_stuck
  | binary op l r =>
      cases op with
      | eq =>
          obtain ⟨m, n, -, -, hv⟩ := (evals_binary (by decide) (by decide)).mp hv
          exact ⟨_, (gives_ret.mp hv).symm⟩
      | lt =>
          obtain ⟨m, n, -, -, hv⟩ := (evals_binary (by decide) (by decide)).mp hv
          exact ⟨_, (gives_ret.mp hv).symm⟩
      | and =>
          obtain ⟨t, -, hv⟩ := truth_of_gives_branch hv
          cases t with
          | true => exact bool_of_gives_truth hv
          | false => exact ⟨_, (gives_ret.mp hv).symm⟩
      | or =>
          obtain ⟨t, -, hv⟩ := truth_of_gives_branch hv
          cases t with
          | true => exact ⟨_, (gives_ret.mp hv).symm⟩
          | false => exact bool_of_gives_truth hv
      | _ => cases h
  | sym x => simp [onlyBooleans, isBoolean, kindOf_empty_ne] at h
  | _ => cases h

/-- Testing a boolean is evaluating it. -/
theorem gives_truthOf_iff (h : Boolean Γ (.expr e ρ)) :
    Gives Γ (truthOf e ρ) v ↔ Evals Γ (.expr e ρ) v := by
  constructor
  · intro hv
    obtain ⟨u, hu, hv⟩ := gives_need.mp hv
    obtain ⟨b, rfl⟩ := h u hu
    obtain rfl := gives_ret.mp hv
    exact hu
  · intro hv
    obtain ⟨b, rfl⟩ := h v hv
    exact gives_need.mpr ⟨_, hv, gives_ret.mpr rfl⟩

theorem joins_of_joinsBooleans (h : e.joinsBooleans) : Joins Γ ρ e := by
  cases e with
  | binary op l r =>
      rw [joinsBooleans, Bool.and_eq_true] at h
      cases op with
      | or => exact ⟨boolean_of_onlyBooleans h.1, fun _ => boolean_of_onlyBooleans h.2⟩
      | and => exact ⟨boolean_of_onlyBooleans h.1, fun _ => boolean_of_onlyBooleans h.2⟩
      | _ => trivial
  | _ => trivial

/-- An expression is logical if it is by its form. -/
theorem logical_of_isLogical (h : e.isLogical) : Logical Γ names e :=
  fun c hc _ _ => joins_of_joinsBooleans (List.all_eq_true.mp h c hc)

/-- A boolean selects one of two arguments. -/
theorem same_select (h : Evals Γ g (.bool t)) :
    Same Γ (.apply (.apply g x) y) (if t then x else y) := by
  refine (((Same.of_evals h).apply x).apply y).trans fun w => ?_
  cases t <;> simp

/-- Two computations that have a value under a condition only, and are the same under it. -/
theorem Same.of_imp {P : Prop} (hx : ∀ w, Evals Γ x w → P) (hy : ∀ w, Evals Γ y w → P)
    (h : P → Same Γ x y) : Same Γ x y :=
  fun w => ⟨fun hw => (h (hx w hw) w).mp hw, fun hw => (h (hy w hw) w).mpr hw⟩

theorem evals_of_apply_two (h : Evals Γ (.apply (.apply g x) y) w) : ∃ v, Evals Γ g v := by
  obtain ⟨u, hu, -⟩ := evals_apply.mp h
  obtain ⟨v, hv, -⟩ := evals_apply.mp hu
  exact ⟨v, hv⟩

theorem evals_of_branch {yes no : Next} (h : Gives Γ ((truthOf e ρ).bind (.branch yes no)) w) :
    ∃ v, Evals Γ (.expr e ρ) v := by
  obtain ⟨t, ht, -⟩ := truth_of_gives_branch h
  obtain ⟨v, hv, -⟩ := gives_need.mp ht
  exact ⟨v, hv⟩

/-- A boolean applied to two arguments is a conditional. -/
theorem same_choice (h : Boolean Γ (.expr a ρ)) :
    Same Γ (.apply (.apply (.expr a ρ) (.expr l ρ)) (.expr r ρ)) (.expr (.cond a l r) ρ) := by
  refine .of_imp (fun _ => evals_of_apply_two) (fun _ => evals_of_branch) fun ⟨v, hv⟩ => ?_
  obtain ⟨t, rfl⟩ := h v hv
  have hcond := same_cond (b := l) (r := r) ((gives_truthOf_iff h).mpr hv)
  refine (same_select hv).trans (Same.symm ?_)
  cases t <;> exact hcond

/-! ### Connectives -/

theorem same_sym_self : Same Γ (.expr (sym p) ((p, x) :: ρ)) x :=
  .of_of next_sym_self

theorem same_sym_ne (h : q ≠ p) : Same Γ (.expr (sym q) ((p, x) :: ρ)) (.expr (sym q) ρ) :=
  .of_next (next_sym_ne h)

theorem same_beta : Same Γ (.apply (.expr (.func p [] e) ρ) x) (.expr e ((p, x) :: ρ)) := by
  intro w
  simp [Evals, next, nextExpr]

/-- `l(l)` applied to `r`. -/
theorem same_or (h : Joins Γ ρ (.binary .or l r)) :
    Same Γ (.apply (.expr (.letIn p l (.call (sym p) [sym p])) ρ) (.expr r ρ))
      (.expr (.binary .or l r) ρ) := by
  obtain ⟨hl, hr⟩ := h
  let σ : Scope := (p, .expr l ρ) :: ρ
  have hhead : Same Γ (.expr (.letIn p l (.call (sym p) [sym p])) ρ)
      (.apply (.expr l ρ) (.expr (sym p) σ)) :=
    (Same.of_of rfl).trans ((same_call _ _ σ).trans (same_sym_self.apply _))
  refine (hhead.apply _).trans
    (.of_imp (fun _ => evals_of_apply_two) (fun _ => evals_of_branch) fun ⟨v, hv⟩ => ?_)
  obtain ⟨t, rfl⟩ := hl v hv
  refine (same_select hv).trans fun w => Iff.trans ?_ (gives_branch_iff
    ((gives_truthOf_iff hl).mpr hv)).symm
  cases t with
  | true => exact (same_sym_self.trans (.of_evals hv) w).trans (evals_ready.trans gives_ret.symm)
  | false => exact (gives_truthOf_iff (hr hv)).symm

/-- `l(r, l)`. -/
theorem same_and (h : Joins Γ ρ (.binary .and l r)) (hpq : q ≠ p) :
    Same Γ (.apply (.expr (.letIn q l (.func p [] (.call (sym q) [sym p, sym q]))) ρ) (.expr r ρ))
      (.expr (.binary .and l r) ρ) := by
  obtain ⟨hl, hr⟩ := h
  let σ : Scope := (p, .expr r ρ) :: (q, .expr l ρ) :: ρ
  have hsym : Same Γ (.expr (sym q) σ) (.expr l ρ) := (same_sym_ne hpq).trans same_sym_self
  have hbody : Same Γ
      (.apply (.expr (.letIn q l (.func p [] (.call (sym q) [sym p, sym q]))) ρ) (.expr r ρ))
      (.apply (.apply (.expr l ρ) (.expr (sym p) σ)) (.expr (sym q) σ)) :=
    ((Same.of_of rfl).apply _).trans (same_beta.trans
      ((Same.of_of rfl).trans ((hsym.apply _).apply _)))
  refine hbody.trans
    (.of_imp (fun _ => evals_of_apply_two) (fun _ => evals_of_branch) fun ⟨v, hv⟩ => ?_)
  obtain ⟨t, rfl⟩ := hl v hv
  refine (same_select hv).trans fun w => Iff.trans ?_ (gives_branch_iff
    ((gives_truthOf_iff hl).mpr hv)).symm
  cases t with
  | true => exact (same_sym_self w).trans (gives_truthOf_iff (hr hv)).symm
  | false => exact (hsym.trans (.of_evals hv) w).trans (evals_ready.trans gives_ret.symm)

/-! ### Functions of two arguments -/

theorem Matches.isFunction {f : Val} (h : Matches Γ k v x) (hx : Evals Γ x f) (hf : f.isFunction) :
    v.isFunction := by
  have hselects := h.selects fun u hu => hx.unique hu ▸ Or.inl hf
  rcases hselects with hv | ⟨b, rfl⟩
  · exact hv
  · obtain rfl := hx.unique h
    cases hf

/-- A function is covered by what covers it when applied, even if that may fail before it is
applied. -/
theorem covers_function {f : Val} (hx : Evals Γ x f) (hf : f.isFunction)
    (hy : ∀ v, Evals Γ y v → v.Selects) (h : ∀ z, Covers Γ (.apply x z) (.apply y z)) :
    Covers Γ x y := by
  intro k n hn
  refine refines_iff.mpr fun c v hc hv => ?_
  have hm := hn.matches hc hv
  have hfun := hm.isFunction hx hf
  rw [matches_function hfun] at hm ⊢
  exact ⟨hy, fun j hj z z' hz => h z' j _ (hm.2 j hj z z' hz)⟩

theorem selects_of_evals {f : Val} (hx : Evals Γ x f) (hf : f.isFunction) (v : Val)
    (hv : Evals Γ x v) : v.Selects :=
  hx.unique hv ▸ Or.inl hf

theorem evals_func {ps : List String} :
    Evals Γ (.expr (.func p ps b) ρ) (.function ρ p ps b) :=
  gives_ret.mpr rfl

/-- What a function is shown as makes no difference. -/
theorem represents_closure {l l' : String} {ps : List String} :
    Represents Γ (.ready (.closure l ρ p ps b)) (.ready (.closure l' ρ p ps b)) := by
  intro k
  have h : Matches Γ k (.closure l ρ p ps b) (.ready (.closure l' ρ p (ps.map id) b)) :=
    closure_matches (Stands.refl b) (apart_id (by simp)) spares_nil fun y _ _ => scope_refl ρ y
  rw [List.map_id] at h
  exact below_ready.mpr h

theorem equiv_func_cons {ps : List String} :
    Equiv Γ (.apply (.expr (.func p (q :: ps) b) ρ) z) (.expr (.func q ps b) ((p, z) :: ρ)) := by
  have happly : Evals Γ (.apply (.expr (.func p (q :: ps) b) ρ) z)
      (.closure (Val.function ρ p (q :: ps) b).label ((p, z) :: ρ) q ps b) :=
    evals_apply.mpr ⟨_, evals_func, gives_ret.mpr rfl⟩
  have hclosure : Equiv Γ (.ready (.closure (Val.function ρ p (q :: ps) b).label ((p, z) :: ρ) q ps b))
      (.ready (.function ((p, z) :: ρ) q ps b)) := ⟨represents_closure, represents_closure⟩
  exact (Same.of_evals happly).equiv.trans (hclosure.trans (Same.of_evals evals_func).symm.equiv)

theorem equiv_function {f g : Val} (hx : Evals Γ x f) (hf : f.isFunction) (hy : Evals Γ y g)
    (hg : g.isFunction) (h : ∀ z, Equiv Γ (.apply x z) (.apply y z)) : Equiv Γ x y :=
  ⟨(covers_function hx hf (selects_of_evals hy hg) fun z => (h z).covers).represents,
    (covers_function hy hg (selects_of_evals hx hf) fun z => (h z).symm.covers).represents⟩

/-- A function that gives a function takes the parameters of both. -/
theorem equiv_curry {ps : List String} :
    Equiv Γ (.expr (.func p [] (.func q ps b)) ρ) (.expr (.func p (q :: ps) b) ρ) :=
  equiv_function evals_func rfl evals_func rfl fun _ =>
    same_beta.equiv.trans equiv_func_cons.symm

/-- A function may take its first two parameters and give a function of the others. -/
theorem equiv_uncurry {s : String} {ps : List String} :
    Equiv Γ (.expr (.func p (q :: s :: ps) b) ρ) (.expr (.func p [q] (.func s ps b)) ρ) := by
  refine equiv_function evals_func rfl evals_func rfl fun z => ?_
  exact equiv_func_cons.trans (equiv_curry.symm.trans equiv_func_cons.symm)

theorem Represents.truth (h : Represents Γ x y) (hx : Gives Γ (.need x truth) (.bool t)) :
    Gives Γ (.need y truth) (.bool t) := by
  obtain ⟨c, hc⟩ := hx
  obtain ⟨b, hb, hy⟩ := (h c).truth (Nat.le_refl c) hc
  cases hb
  exact hy

/-- A function that swaps the branches of a conditional is the negation of its test. -/
theorem covers_not (hp : p ∉ test.free) (hq : q ∉ test.free) (hpq : p ≠ q) :
    Covers Γ (.expr (.func p [q] (.cond test (sym q) (sym p))) ρ) (.expr (.not test) ρ) := by
  have hnot : Boolean Γ (.expr (.not test) ρ) := boolean_of_onlyBooleans rfl
  refine covers_function evals_func rfl (fun v hv => Or.inr (hnot v hv)) fun z => ?_
  refine equiv_func_cons.covers.trans (covers_function evals_func rfl (fun v hv => ?_) fun w => ?_)
  · obtain ⟨u, hu, hv⟩ := evals_apply.mp hv
    obtain ⟨b, rfl⟩ := hnot u hu
    cases b <;> exact gives_ret.mp hv ▸ Or.inl rfl
  -- the test does not see the two arguments
  let σ : Scope := (q, w) :: (p, z) :: ρ
  have hscope : Equiv Γ (.expr test σ) (.expr test ρ) := by
    refine equiv_expr fun y hy => Same.equiv ?_
    have hyq : y ≠ q := fun he => hq (he ▸ hy)
    have hyp : y ≠ p := fun he => hp (he ▸ hy)
    exact (same_sym_ne hyq).trans (same_sym_ne hyp)
  refine (same_beta.trans (.of_imp (P := ∃ t, Gives Γ (truthOf test ρ) (.bool t))
    (fun v hv => ?_) (fun v hv => ?_) fun ⟨t, ht⟩ => ?_)).covers
  · obtain ⟨t, ht, -⟩ := truth_of_gives_branch hv
    exact ⟨t, hscope.1.truth ht⟩
  · obtain ⟨u, hu⟩ := evals_of_apply_two hv
    obtain ⟨t, ht, -⟩ := truth_of_gives_branch hu
    exact ⟨t, ht⟩
  · have hcond := same_cond (b := sym q) (r := sym p) (hscope.2.truth ht)
    have hneg : Evals Γ (.expr (.not test) ρ) (.bool !t) := by
      refine (gives_branch_iff ht).mpr ?_
      cases t <;> exact gives_ret.mpr rfl
    refine hcond.trans (Same.trans ?_ (same_select hneg).symm)
    cases t with
    | true => exact same_sym_self
    | false => exact (same_sym_ne hpq).trans same_sym_self

/-! ### Lets -/

/-- A name bound between a let and its body may be bound before the let. -/
theorem equiv_swap {s : String} (hqs : q ≠ s) (hv : q ∉ l.free) :
    Equiv Γ (.expr b ((q, z) :: (s, .expr l ρ) :: ρ))
      (.expr b ((s, .expr l ((q, z) :: ρ)) :: (q, z) :: ρ)) := by
  refine equiv_expr fun y _ => ?_
  by_cases hys : y = s
  · subst hys
    have hvalue : Equiv Γ (.expr l ρ) (.expr l ((q, z) :: ρ)) := by
      refine equiv_expr fun u hu => ?_
      have huq : u ≠ q := fun he => hv (he ▸ hu)
      exact (Same.symm (same_sym_ne huq)).equiv
    exact (((same_sym_ne (Ne.symm hqs)).trans same_sym_self).equiv).trans
      (hvalue.trans (Same.equiv same_sym_self.symm))
  · refine Same.equiv ?_
    by_cases hyq : y = q
    · subst hyq
      exact same_sym_self.trans ((same_sym_ne hys).trans same_sym_self).symm
    · exact ((same_sym_ne hyq).trans (same_sym_ne hys)).trans
        ((same_sym_ne hys).trans (same_sym_ne hyq)).symm

/-- A function under lets, applied, is its body under the same lets. -/
theorem takeParam_covers (h : takeParam f = some (p, b)) (hy : f.Hygienic) :
    Covers Γ (.apply (.expr f ρ) z) (.expr b ((p, z) :: ρ)) := by
  fun_induction takeParam f generalizing b p ρ with
  | case1 x v body ih =>
      obtain ⟨⟨q, body'⟩, hbody, heq⟩ := Option.map_eq_some_iff.mp h
      obtain ⟨rfl, rfl⟩ := Prod.mk.inj heq
      obtain ⟨hbody', hqx, hqv⟩ := takeParam_letIn hbody hy
      have hlet : Same Γ (.apply (.expr (.letIn x v body) ρ) z)
          (.apply (.expr body ((x, .expr v ρ) :: ρ)) z) := (Same.of_of rfl).apply z
      refine hlet.covers.trans ((ih hbody hbody').trans ((equiv_swap hqx hqv).covers.trans ?_))
      exact (Same.symm (.of_of rfl)).covers
  | case2 q body =>
      obtain ⟨rfl, rfl⟩ := Prod.mk.inj (Option.some.inj h)
      exact same_beta.covers
  | case3 q r rest body =>
      obtain ⟨rfl, rfl⟩ := Prod.mk.inj (Option.some.inj h)
      exact equiv_func_cons.covers
  | case4 => simp at h

/-! ### Applications -/

theorem same_operator {op : BinOp} (h : operatorOf? f = some op) :
    Same Γ (.apply (.expr (.call f [a]) ρ) (.expr b ρ)) (.expr (.binary op a b) ρ) := by
  rw [operatorOf?.eq_def] at h
  intro w
  split at h <;> cases h
  all_goals
    simp [Evals, next, nextExpr, ByName.applyAll, Val.ofPrim, Val.appliedBinary, Binary.operator?]

theorem same_extend {es : List Expr} :
    Same Γ (.apply (.expr (.call f es) ρ) (.expr a ρ)) (.expr (.call f (es ++ [a])) ρ) := by
  refine ((Same.of_of rfl).apply _).trans (Same.symm (.of_of ?_))
  simp [next, nextExpr, ByName.applyAll]

/-- A list applied to a function of two parameters is taken apart. -/
theorem covers_parts (ha : Equiv Γ (.expr a ρ) (.expr (.func p [q] b) ρ)) :
    Covers Γ (.apply (.expr l ρ) (.expr a ρ)) (.expr (.letCons p q l b) ρ) := by
  have harg : Equiv Γ (.expr (.func p [q] b) ρ) (.ready (.function ρ p [q] b)) :=
    Same.equiv (.of_next rfl)
  exact ((Equiv.refl _).apply (ha.trans harg)).covers.trans (Same.symm same_letCons).covers

/-- **An idiom covers the application that it is recognised in.**  The connectives have to
join booleans, and the one shape of a conjunction that asks for its right operand first must
not occur. -/
theorem Reading.covers {lists : List String} (h : Reading .empty lists f a e) (hy : f.Hygienic)
    (he : ∀ c ∈ e.connectives, Joins Γ ρ c)
    (hflipped : ∀ v p l, f ≠ .letIn v l (.func p [] (.call (sym p) [sym v, sym p]))) :
    Covers Γ (.apply (.expr f ρ) (.expr a ρ)) (.expr e ρ) := by
  cases h with
  | neg a =>
      refine Same.covers fun w => ?_
      simp [Evals, next, nextExpr, Val.ofPrim, Val.appliedUnary]
  | isNil a =>
      refine Same.covers fun w => ?_
      simp [Evals, next, nextExpr, Val.ofPrim, Val.appliedUnary]
  | call => exact (same_call f a ρ).symm.covers
  | extend g args => exact same_extend.covers
  | operator hop b => exact (same_operator hop).covers
  | choice hg b =>
      have hbool := onlyBooleans_of_isBoolean (isBoolean_lists hg)
      exact (((same_call _ _ ρ).apply _).trans (same_choice (boolean_of_onlyBooleans hbool))).covers
  | predicate hg b => simp [isPredicate_empty] at hg
  | parts g h t b => exact covers_parts (.refl _)
  | partsThen g h t p ps b => exact covers_parts equiv_uncurry
  | bind hp => exact (takeParam_covers hp hy).trans (Same.symm (.of_of rfl)).covers
  | or v l => exact (same_or (he _ (by simp [connectives_binary, isConnective]))).covers
  | and v p l =>
      have hvp : v ≠ p := fun heq => by
        have hdistinct := hy.distinct
        simp [heq] at hdistinct
      exact (same_and (he _ (by simp [connectives_binary, isConnective])) hvp).covers
  | andFlipped v p l => exact absurd rfl (hflipped v p l)

/-! ### Terms -/

theorem Abstraction.stands (h : Abstraction p a e') (hp : p ∉ a.binders) (hnames : p ∉ names)
    (he : Stands Γ names id e a) : Stands Γ names id (.func p [] e) e' := by
  cases h with
  | plain => exact he.func_one hnames
  | more q rest b => exact (he.func_one hnames).covers fun ρ _ => equiv_curry.covers
  | @not q test htp htq =>
      have hpq : p ≠ q := by
        simp only [binders_func, List.mem_cons, not_or] at hp
        exact hp.1
      refine (he.func_one hnames).covers fun ρ _ => equiv_curry.covers.trans ?_
      exact covers_not (notMem_free_of_mentions htp) (notMem_free_of_mentions htq) hpq

theorem Reading.stands {lists : List String} {g d : Expr} (h : Reading .empty lists f a e)
    (hy : f.Hygienic) (he : Logical Γ names e)
    (hflipped : ∀ v p l, f ≠ .letIn v l (.func p [] (.call (sym p) [sym v, sym p])))
    (hf : Stands Γ names id g f) (ha : Stands Γ names id d a) : Stands Γ names id (.call g [d]) e :=
  (hf.call_one ha).covers fun ρ hρ => (same_call f a ρ).covers.trans
    (Reading.covers h hy (fun c hc => he c hc ρ hρ) hflipped)

/-- Terms that can be read as expressions: they bind each name once and none of `names`, and
apply no flipped conjunction. -/
structure Legible (names : List String) (t : Folded) : Prop where
  hygienic : t.Hygienic
  named : "" ∉ t.binders
  apart : ∀ p ∈ t.binders, p ∉ names
  straight : ∀ v p x, ¬ Folded.Part (.ap (.flipped v p) x) t

namespace Legible

variable {u : Folded} {items : List Folded}

theorem body (h : Legible names (.fn p u)) : Legible names u where
  hygienic := h.hygienic.under
  named hu := h.named (List.mem_cons_of_mem p hu)
  apart q hq := h.apart q (List.mem_cons_of_mem p hq)
  straight v q x hpart := h.straight v q x (.body p hpart)

theorem function {f : Folded} (h : Legible names (.ap f u)) : Legible names f where
  hygienic := h.hygienic.left
  named hf := h.named (List.mem_append_left _ hf)
  apart q hq := h.apart q (List.mem_append_left _ hq)
  straight v q x hpart := h.straight v q x (.function u hpart)

theorem argument {f : Folded} (h : Legible names (.ap f u)) : Legible names u where
  hygienic := h.hygienic.right
  named hu := h.named (List.mem_append_right _ hu)
  apart q hq := h.apart q (List.mem_append_right _ hq)
  straight v q x hpart := h.straight v q x (.argument f hpart)

theorem head (h : Legible names (.list (u :: items))) : Legible names u where
  hygienic := h.hygienic.left
  named hu := h.named (List.mem_append_left _ hu)
  apart q hq := h.apart q (List.mem_append_left _ hq)
  straight v q x hpart := h.straight v q x (.item List.mem_cons_self hpart)

theorem tail (h : Legible names (.list (u :: items))) : Legible names (.list items) where
  hygienic := h.hygienic.right
  named hitems := h.named (List.mem_append_right _ hitems)
  apart q hq := h.apart q (List.mem_append_right _ hq)
  straight v q x hpart := by
    cases hpart with
    | item ht hpart => exact h.straight v q x (.item (List.mem_cons_of_mem u ht) hpart)

end Legible

theorem recogniseAll_stands {items : List Folded}
    (ih : ∀ t ∈ items, ∀ lists, Legible names t → Logical Γ names (recognise .empty t lists).1 →
      Stands Γ names id t.toExpr (recognise .empty t lists).1) :
    ∀ lists, Legible names (.list items) →
      Logical Γ names (.list (recogniseAll .empty items lists).1) →
      List.Forall₂ (Stands Γ names id) (Folded.toExprAll items)
        (recogniseAll .empty items lists).1 := by
  induction items with
  | nil => exact fun _ _ _ => .nil
  | cons t ts ihts =>
      intro lists ht hlogical
      rw [recogniseAll, Logical, connectives_list, List.flatMap_cons,
        List.forall_mem_append] at hlogical
      refine .cons (ih t List.mem_cons_self lists ht.head hlogical.1) ?_
      refine ihts (fun u hu => ih u (List.mem_cons_of_mem _ hu)) _ ht.tail ?_
      rw [Logical, connectives_list]
      exact hlogical.2

/-- **A term is represented by the expression that it is read as**, if the connectives in it
join booleans and no flipped conjunction is applied in the term. -/
theorem recognise_stands (t : Folded) :
    ∀ lists, Legible names t → Logical Γ names (recognise .empty t lists).1 →
      Stands Γ names id t.toExpr (recognise .empty t lists).1 := by
  induction t with
  | fn p body ih =>
      intro lists ht hlogical
      have habs := recognise_fn .empty p body lists
      have hbody := @recognise_retains .empty body lists ht.body.hygienic ht.body.named
      rw [Logical, habs.connectives_eq] at hlogical
      refine Abstraction.stands habs (fun hmem => ?_) (ht.apart p List.mem_cons_self)
        (ih lists ht.body hlogical)
      exact (List.nodup_cons.mp ht.hygienic.distinct).1 (hbody.mem_binders hmem)
  | ap f x ihf ihx =>
      intro lists ht hlogical
      have hyf : f.Hygienic := ht.function.hygienic
      have hnamed := ht.function.named
      obtain ⟨before, after, hread⟩ := recognise_ap (u := x) .empty lists hyf hnamed
      have hsub := hread.connectives_subset
      have hf := @recognise_retains .empty f lists hyf hnamed
      refine Reading.stands hread (hf.hygiene hyf) hlogical (fun v p l heq => ?_)
        (ihf lists ht.function fun c hc => hlogical c (hsub (List.mem_append_left _ hc)))
        (ihx before ht.argument fun c hc => hlogical c (hsub (List.mem_append_right _ hc)))
      obtain ⟨u, rfl⟩ := eq_flipped_of_recognise hyf hnamed heq
      exact ht.straight v p u (.function x .refl)
  | list items ih =>
      intro lists ht hlogical
      rw [recognise] at hlogical
      exact .list (recogniseAll_stands ih lists ht hlogical)
  | sym x => exact fun _ _ _ => .sym x
  | int n => exact fun _ _ _ => .int n
  | prim p => exact fun _ _ _ => .spare (.refl _)
  | falsity => exact fun _ _ _ => .bool false

end Decombinator.ByName
