/-
The relation is kept by every construct.

An expression whose parts are related is related to the expression with the other parts.
Names may change on the way: `ν` says what the names below are called above, and a binder
must not be given the name of something else in its scope.  Every computation is
therefore related to itself.
-/
import Decombinator.Proofs.Expr.Renaming
import Decombinator.Proofs.Meaning.Primitives

namespace Decombinator.ByName

open Decombinator.Expr

variable {Γ : Globals} {j k c d : Nat} {v w : Val} {x x' z z' : Arg} {ν : String → String}
  {ρ ρ' : Scope} {p q y : String} {names ps : List String} {e e' a a' b b' l l' r r' : Expr}

/-! ### Names in scope -/

/-- None of the names is bound in a scope. -/
def Spares (names : List String) (ρ : Scope) : Prop :=
  ∀ x ∈ names, ρ.lookup x = none

theorem spares_nil : Spares [] ρ :=
  fun _ hx => absurd hx List.not_mem_nil

theorem Spares.bind (h : Spares names ρ) (hp : p ∉ names) (z : Arg) :
    Spares names ((p, z) :: ρ) := by
  intro x hx
  have hxp : (x == p) = false := beq_eq_false_iff_ne.mpr fun he => hp (he ▸ hx)
  rw [List.lookup_cons, hxp]
  exact h x hx

/-- `e'` stands for `e` wherever the names that `e` uses, which are called otherwise in `e'`,
stand for each other, and `names` are the names of globals. -/
def Stands (Γ : Globals) (names : List String) (ν : String → String) (e e' : Expr) : Prop :=
  ∀ k ρ ρ', Spares names ρ' →
    (∀ y ∈ e.free, Below Γ k (.expr (sym y) ρ) (.expr (sym (ν y)) ρ')) →
    Below Γ k (.expr e ρ) (.expr e' ρ')

/-- What the parameters `ps` of a function with the body `e` are called, other names in the body
are not called, and no name of `names` is. -/
def Apart (names : List String) (ν : String → String) (ps : List String) (e : Expr) : Prop :=
  ∀ x ∈ ps, ν x ∉ names ∧ ∀ y ∈ e.free, ν y = ν x → y = x

theorem apart_id (h : ∀ x ∈ ps, x ∉ names) : Apart names id ps e :=
  fun x hx => ⟨h x hx, fun _ _ hyx => hyx⟩

theorem apart_nil (h : ∀ x ∈ ps, ∀ y ∈ e.free, ν y = ν x → y = x) : Apart [] ν ps e :=
  fun x hx => ⟨List.not_mem_nil, h x hx⟩

/-- Going on with a computation. -/
theorem Same.of_of (h : next Γ x = .of z) : Same Γ x z := by
  intro v
  rw [Evals, h, gives_of]

theorem Below.of_of (hz : Below Γ k z z') (hx : next Γ x = .of z) (hx' : next Γ x' = .of z') :
    Below Γ k x x' := by
  rw [Below, hx]
  exact ((Refines.of_below hz).mono (Nat.le_succ k)).same (Same.of_of hx').symm

theorem next_sym_self : next Γ (.expr (sym p) ((p, z) :: ρ)) = .of z := by
  simp [next, nextExpr]

theorem next_sym_ne (h : y ≠ p) :
    next Γ (.expr (sym y) ((p, z) :: ρ)) = next Γ (.expr (sym y) ρ) := by
  have hyp : (y == p) = false := beq_eq_false_iff_ne.mpr h
  simp only [next, nextExpr, List.lookup_cons, hyp]

/-- A name after one more name is bound. -/
theorem below_sym_bind (hz : Below Γ k z z') (hsep : ν y = ν p → y = p)
    (h : y ≠ p → Below Γ k (.expr (sym y) ρ) (.expr (sym (ν y)) ρ')) :
    Below Γ k (.expr (sym y) ((p, z) :: ρ)) (.expr (sym (ν y)) ((ν p, z') :: ρ')) := by
  by_cases hy : y = p
  · subst hy
    exact hz.of_of next_sym_self next_sym_self
  · refine (h hy).of_next (next_sym_ne hy) |>.same ?_
    exact Same.of_next (next_sym_ne fun he => hy (hsep he)).symm

theorem closure_matches {l l' : String} (he : Stands Γ names ν e e')
    (hps : Apart names ν (p :: ps) e) (hρ' : Spares names ρ')
    (h : ∀ y ∈ e.free, y ∉ p :: ps → Below Γ k (.expr (sym y) ρ) (.expr (sym (ν y)) ρ')) :
    Matches Γ k (.closure l ρ p ps e) (.ready (.closure l' ρ' (ν p) (ps.map ν) e')) := by
  induction ps generalizing p k ρ ρ' with
  | nil =>
      obtain ⟨hp, hsep⟩ := hps p List.mem_cons_self
      refine matches_ready rfl rfl fun j hj z z' hz => refines_of_apply ?_ rfl
      refine he _ _ _ (hρ'.bind hp z') fun y hy => below_sym_bind hz (hsep y hy) fun hyp => ?_
      exact (h y hy (by simpa using hyp)).mono (Nat.le_of_lt hj)
  | cons q ps ih =>
      obtain ⟨hp, hsep⟩ := hps p List.mem_cons_self
      have hrest : Apart names ν (q :: ps) e := fun x hx => hps x (List.mem_cons_of_mem p hx)
      refine matches_ready rfl rfl fun j hj z z' hz => refines_ret_apply ?_ rfl
      refine ih hrest (hρ'.bind hp z') fun y hy hyps => ?_
      refine below_sym_bind hz (hsep y hy) fun hyp => ?_
      have hnames : y ∉ p :: q :: ps := fun hmem => (List.mem_cons.mp hmem).elim hyp hyps
      exact (h y hy hnames).mono (Nat.le_of_lt hj)

/-! ### Constructs -/

theorem same_cond {t : Bool} (h : Gives Γ (truthOf a ρ) (.bool t)) :
    Same Γ (.expr (cond a b r) ρ) (.expr (if t then b else r) ρ) := by
  intro w
  refine (gives_bind_iff h).trans ?_
  cases t <;> exact gives_of

theorem same_letCons : Same Γ (.expr (letCons p q l b) ρ)
    (.apply (.expr l ρ) (.ready (.function ρ p [q] b))) := by
  intro w
  simp [Evals, next, nextExpr]

theorem same_matchList_nil (h : Evals Γ (.expr l ρ) .nil) :
    Same Γ (.expr (matchList l a p q b) ρ) (.expr a ρ) :=
  fun _ => (gives_need_iff h).trans gives_of

theorem same_matchList_apply (h : ¬ Evals Γ (.expr l ρ) .nil) :
    Same Γ (.expr (matchList l a p q b) ρ)
      (.apply (.expr l ρ) (.ready (.function ρ p [q] b))) := by
  intro w
  refine gives_need.trans (Iff.trans ?_ evals_apply.symm)
  refine exists_congr fun u => and_congr_right fun hu => ?_
  cases u with
  | nil => exact absurd hu h
  | _ => simp only [gives_of, evals_apply, evals_ready, exists_eq_left']

theorem Matches.not_nil (h : Matches Γ k v x') (hv : v ≠ .nil) : ¬ Evals Γ x' .nil := by
  intro hnil
  cases hfun : v.isFunction with
  | true =>
      rcases ((matches_function hfun).mp h).1 _ hnil with hn | ⟨b, hn⟩
      · cases hn
      · cases hn
  | false =>
      by_cases hcons : ∃ h t, v = .cons h t
      · obtain ⟨_, _, rfl⟩ := hcons
        obtain ⟨_, _, hx', -⟩ := h
        cases hx'.unique hnil
      · exact hv ((h.evals hfun fun h t he => hcons ⟨h, t, he⟩).unique hnil)

namespace Stands

theorem spare (h : Stands Γ [] ν e e') : Stands Γ names ν e e' :=
  fun k ρ ρ' _ => h k ρ ρ' spares_nil

theorem sym (y : String) : Stands Γ names ν (sym y) (sym (ν y)) :=
  fun _ _ _ _ h => h y (List.mem_singleton_self y)

theorem int (n : Int64) : Stands Γ names ν (int n) (int n) :=
  fun _ _ _ _ _ => refines_ret.mpr (int_matches n (gives_ret.mpr rfl))

theorem bool (b : Bool) : Stands Γ names ν (bool b) (bool b) :=
  fun _ _ _ _ _ => refines_ret.mpr (bool_matches b (gives_ret.mpr rfl))

theorem prim (p : Prim) : Stands Γ names ν (prim p) (prim p) :=
  fun _ _ _ _ _ => refines_ret.mpr ((ofPrim_matches p).same (Same.of_next rfl))

theorem neg (ha : Stands Γ names ν a a') : Stands Γ names ν (neg a) (neg a') := by
  intro k ρ ρ' hρ' h
  refine refines_need fun c u hc hy => ?_
  have hu := (ha k ρ ρ' hρ' h).matches (by omega) hy
  refine Refines.same (x := .apply (.ready (.unary .neg)) (.expr a' ρ')) ?_ ?_
  · refine (Refines.of_below ?_).mono (Nat.le_succ _)
    exact (below_ready.mpr (unary_matches .neg)).apply (hu.below (by omega))
  · intro w
    simp [Evals, next, nextExpr, Val.appliedUnary]

theorem isNil (ha : Stands Γ names ν a a') : Stands Γ names ν (isNil a) (isNil a') := by
  intro k ρ ρ' hρ' h
  refine Refines.same (appliedUnary_refines .isnil (ha k ρ ρ' hρ' h)) ?_
  intro w
  simp [Evals, next, nextExpr, Val.appliedUnary]

theorem not (ha : Stands Γ names ν a a') : Stands Γ names ν (not a) (not a') := by
  intro k ρ ρ' hρ' h
  refine branch_refines (ha k ρ ρ' hρ' h) (fun hb => ?_) (fun hb => ?_)
  · exact refines_ret.mpr (bool_matches false (gives_bind.mpr ⟨_, hb, gives_ret.mpr rfl⟩))
  · exact refines_ret.mpr (bool_matches true (gives_bind.mpr ⟨_, hb, gives_ret.mpr rfl⟩))

theorem binary (op : BinOp) (hl : Stands Γ names ν l l') (hr : Stands Γ names ν r r') :
    Stands Γ names ν (binary op l r) (binary op l' r') := by
  intro k ρ ρ' hρ' h
  simp only [free, List.mem_append] at h
  have hl := hl k ρ ρ' hρ' fun y hy => h y (Or.inl hy)
  have hr := hr k ρ ρ' hρ' fun y hy => h y (Or.inr hy)
  cases op with
  | and =>
      refine branch_refines hl (fun ht => ?_) (fun ht => ?_)
      · exact truth_refines hr fun b hb => (gives_bind_iff ht).mpr hb
      · exact refines_ret.mpr (bool_matches false ((gives_bind_iff ht).mpr (gives_ret.mpr rfl)))
  | or =>
      refine branch_refines hl (fun ht => ?_) (fun ht => ?_)
      · exact refines_ret.mpr (bool_matches true ((gives_bind_iff ht).mpr (gives_ret.mpr rfl)))
      · exact truth_refines hr fun b hb => (gives_bind_iff ht).mpr hb
  | _ =>
      exact arith_refines _ hl hr fun a b w ha hb hw =>
        (gives_need_iff ha).mpr ((gives_need_iff hb).mpr hw)

theorem cond (ha : Stands Γ names ν a a') (hb : Stands Γ names ν b b') (hr : Stands Γ names ν r r') :
    Stands Γ names ν (cond a b r) (cond a' b' r') := by
  intro k ρ ρ' hρ' h
  simp only [free, List.mem_append] at h
  have ha := ha k ρ ρ' hρ' fun y hy => h y (Or.inl hy)
  have hb := hb k ρ ρ' hρ' fun y hy => h y (Or.inr (Or.inl hy))
  have hr := hr k ρ ρ' hρ' fun y hy => h y (Or.inr (Or.inr hy))
  refine branch_refines ha (fun ht => ?_) (fun ht => ?_)
  · exact ((Refines.of_below hb).mono (Nat.le_succ k)).same (same_cond ht).symm
  · exact ((Refines.of_below hr).mono (Nat.le_succ k)).same (same_cond ht).symm

theorem list {es es' : List Expr} (hes : List.Forall₂ (Stands Γ names ν) es es') :
    Stands Γ names ν (list es) (list es') := by
  intro k ρ ρ' hρ' h
  refine refines_ret.mpr (Matches.same (x := .ready (listVal ρ' es')) ?_ (.of_next rfl))
  induction hes generalizing k with
  | nil => exact evals_ready.mpr rfl
  | cons he _ ih =>
      simp only [free, freeAll, List.mem_append] at h ih
      refine ⟨_, _, evals_ready.mpr rfl, fun j hj => ⟨?_, ?_⟩⟩
      · exact (he k ρ ρ' hρ' fun y hy => h y (Or.inl hy)).mono (Nat.le_of_lt hj)
      · exact below_ready.mpr ((ih k fun y hy => h y (Or.inr hy)).mono (Nat.le_of_lt hj))

theorem call {f f' : Expr} {es es' : List Expr} (hf : Stands Γ names ν f f')
    (hes : List.Forall₂ (Stands Γ names ν) es es') :
    Stands Γ names ν (.call f es) (.call f' es') := by
  intro k ρ ρ' hρ' h
  simp only [free, List.mem_append] at h
  refine Below.of_of (Below.applyAll (hf k ρ ρ' hρ' fun y hy => h y (Or.inl hy)) ?_) rfl rfl
  replace h := fun y hy => h y (Or.inr hy)
  induction hes with
  | nil => exact .nil
  | cons he _ ih =>
      simp only [freeAll, List.mem_append] at h
      exact .cons (he k ρ ρ' hρ' fun y hy => h y (Or.inl hy)) (ih fun y hy => h y (Or.inr hy))

theorem letCons {hd tl : String} (hl : Stands Γ names ν l l') (hb : Stands Γ names ν b b')
    (hps : Apart names ν [hd, tl] b) :
    Stands Γ names ν (letCons hd tl l b) (letCons (ν hd) (ν tl) l' b') := by
  intro k ρ ρ' hρ' h
  simp only [free, List.mem_append, List.mem_filter, decide_eq_true_eq] at h
  have hl := hl k ρ ρ' hρ' fun y hy => h y (Or.inl hy)
  have hb : Matches Γ k (.function ρ hd [tl] b) (.ready (.function ρ' (ν hd) [ν tl] b')) :=
    closure_matches hb hps hρ' fun y hy hyps => h y (Or.inr ⟨hy, by simpa using hyps⟩)
  refine refines_need fun c u hc hy => ?_
  have hu := hl.matches (by omega) hy
  refine Refines.same ?_ (Same.symm same_letCons)
  refine (Refines.of_below ?_).mono (Nat.le_succ _)
  exact (hu.below (by omega)).apply (hb.below (Nat.sub_le _ _))

theorem matchList {hd tl : String} (hl : Stands Γ names ν l l') (ha : Stands Γ names ν a a')
    (hb : Stands Γ names ν b b') (hps : Apart names ν [hd, tl] b) :
    Stands Γ names ν (matchList l a hd tl b) (matchList l' a' (ν hd) (ν tl) b') := by
  intro k ρ ρ' hρ' h
  simp only [free, List.mem_append, List.mem_filter, decide_eq_true_eq] at h
  have hl := hl k ρ ρ' hρ' fun y hy => h y (Or.inl hy)
  have ha := ha k ρ ρ' hρ' fun y hy => h y (Or.inr (Or.inl hy))
  have hb : Matches Γ k (.function ρ hd [tl] b) (.ready (.function ρ' (ν hd) [ν tl] b')) :=
    closure_matches hb hps hρ' fun y hy hyps =>
      h y (Or.inr (Or.inr ⟨hy, by simpa using hyps⟩))
  refine refines_need fun c u hc hy => ?_
  have hu := hl.matches (by omega) hy
  by_cases hnil : u = .nil
  · subst hnil
    refine Refines.same ?_ (same_matchList_nil hu).symm
    exact (Refines.of_below ha).mono (by omega)
  · have happly := (hu.below (j := k - (c + 1)) (by omega)).apply (hb.below (Nat.sub_le _ _))
    have hsame := same_matchList_apply (a := a') (p := ν hd) (q := ν tl) (b := b')
      (hu.not_nil hnil)
    have hof := ((Refines.of_below happly).mono (Nat.le_succ _)).same hsame.symm
    cases u with
    | nil => exact absurd rfl hnil
    | _ => exact hof

theorem letIn (hl : Stands Γ names ν l l') (hb : Stands Γ names ν b b')
    (hps : Apart names ν [p] b) : Stands Γ names ν (letIn p l b) (letIn (ν p) l' b') := by
  intro k ρ ρ' hρ' h
  simp only [free, List.mem_append, List.mem_filter, decide_eq_true_eq] at h
  obtain ⟨hp, hsep⟩ := hps p (List.mem_singleton_self p)
  refine Below.of_of (hb _ ((p, .expr l ρ) :: ρ) _ (hρ'.bind hp _) fun y hy => ?_) rfl rfl
  exact below_sym_bind (hl k ρ ρ' hρ' fun y hy => h y (Or.inl hy)) (hsep y hy) fun hyp =>
    h y (Or.inr ⟨hy, hyp⟩)

theorem func (hb : Stands Γ names ν b b') (hps : Apart names ν (p :: ps) b) :
    Stands Γ names ν (func p ps b) (func (ν p) (ps.map ν) b') := by
  intro k ρ ρ' hρ' h
  refine refines_ret.mpr
    (Matches.same (closure_matches hb hps hρ' fun y hy hyps => ?_) (.of_next rfl))
  exact h y (List.mem_filter.mpr ⟨hy, by simpa using hyps⟩)

end Stands

/-! ### Expressions and computations stand for themselves -/

/-- An expression is represented by itself with other names, as long as the names that it
binds stay apart from the others. -/
theorem stands_mapNames (h : Separates ν e) : Stands Γ [] ν e (e.mapNames ν) := by
  induction e with
  | int n => exact .int n
  | sym x => exact .sym x
  | bool b => exact .bool b
  | prim p => exact .prim p
  | list es ih =>
      rw [mapNames, mapNamesAll_eq_map]
      refine .list (List.forall₂_map_right_iff.mpr (List.forall₂_same.mpr fun e he => ih e he ?_))
      exact h.part he
  | neg a ih => exact .neg (ih h)
  | not a ih => exact .not (ih h)
  | isNil a ih => exact .isNil (ih h)
  | binary op a b iha ihb =>
      refine .binary op (iha ?_) (ihb ?_)
      · exact h.part (by simp [parts])
      · exact h.part (by simp [parts])
  | cond a b r iha ihb ihr =>
      refine .cond (iha ?_) (ihb ?_) (ihr ?_)
      · exact h.part (by simp [parts])
      · exact h.part (by simp [parts])
      · exact h.part (by simp [parts])
  | matchList l a hd tl b ihl iha ihb =>
      refine .matchList (ihl ?_) (iha ?_) (ihb ?_) (apart_nil (h.bound (by simp [parts])))
      · exact h.part (by simp [parts])
      · exact h.part (by simp [parts])
      · exact h.part (by simp [parts])
  | letCons hd tl l b ihl ihb =>
      refine .letCons (ihl ?_) (ihb ?_) (apart_nil (h.bound (by simp [parts])))
      · exact h.part (by simp [parts])
      · exact h.part (by simp [parts])
  | letIn x l b ihl ihb =>
      refine .letIn (ihl ?_) (ihb ?_) (apart_nil (h.bound (by simp [parts])))
      · exact h.part (by simp [parts])
      · exact h.part (by simp [parts])
  | call f es ihf ih =>
      rw [mapNames, mapNamesAll_eq_map]
      refine .call (ihf ?_)
        (List.forall₂_map_right_iff.mpr (List.forall₂_same.mpr fun e he => ih e he ?_))
      · exact h.part (by simp [parts])
      · exact h.part (List.mem_cons_of_mem _ he)
  | func p ps b ih =>
      refine .func (ih ?_) (apart_nil (h.bound (by simp [parts])))
      exact h.part (by simp [parts])

theorem mapNames_id (e : Expr) : e.mapNames id = e := by
  induction e with
  | list es ih =>
      rw [mapNames, mapNamesAll_eq_map, List.map_congr_left ih, List.map_id']
  | call f es ihf ih =>
      rw [mapNames, mapNamesAll_eq_map, List.map_congr_left ih, List.map_id', ihf]
  | _ => simp_all [mapNames]

theorem Stands.refl (e : Expr) : Stands Γ [] id e e := by
  have h := stands_mapNames (Γ := Γ) (ν := id) (e := e) fun _ _ _ _ hyx => hyx
  rwa [mapNames_id] at h

/-- The global names stand for themselves, as far as `k` demands tell. -/
def SameGlobals (Γ : Globals) (k : Nat) : Prop :=
  ∀ y, Refines Γ k (global Γ y) (.expr (sym y) [])

theorem code_below (h : SameGlobals Γ k) (c : Code) : Below Γ k (.code c) (.code c) := by
  induction c with
  | int n => exact refines_ret.mpr (int_matches n (gives_ret.mpr rfl))
  | sym y => exact Refines.same (h y) (.of_next rfl)
  | prim p => exact refines_ret.mpr ((ofPrim_matches p).same (.of_next rfl))
  | ap f x ihf ihx => exact ((ihf.apply ihx).of_next rfl).same (.of_next rfl)

mutual

theorem matches_self (hΓ : SameGlobals Γ k) : ∀ v : Val, Matches Γ k v (.ready v)
  | .int n => int_matches n (evals_ready.mpr rfl)
  | .bool b => bool_matches b (evals_ready.mpr rfl)
  | .nil => (evals_ready.mpr rfl : Evals Γ _ .nil)
  | .probe first => probe_matches first
  | .cons h t =>
      ⟨h, t, evals_ready.mpr rfl, fun _ hj =>
        ⟨(below_self hΓ h).mono (Nat.le_of_lt hj), (below_self hΓ t).mono (Nat.le_of_lt hj)⟩⟩
  | .unary g => unary_matches g
  | .binary g => binary_matches g
  | .binary1 g x => binary1_matches g (below_self hΓ x)
  | .ternary g => ternary_matches g
  | .ternary1 g x => ternary1_matches g (below_self hΓ x)
  | .ternary2 g x y => ternary2_matches g (below_self hΓ x) (below_self hΓ y)
  | .always x => always_matches (below_self hΓ x)
  | .second => second_matches
  | .closure l ρ p ps e => by
      have h : Matches Γ k (.closure l ρ p ps e) (.ready (.closure l ρ p (ps.map id) e)) :=
        closure_matches (Stands.refl e) (apart_id (by simp)) spares_nil fun y _ _ => scope_self hΓ ρ y
      rwa [List.map_id] at h

theorem below_self (hΓ : SameGlobals Γ k) : ∀ x : Arg, Below Γ k x x
  | .ready v => below_ready.mpr (matches_self hΓ v)
  | .code c => code_below hΓ c
  | .expr e ρ => Stands.refl e _ ρ ρ spares_nil fun y _ => scope_self hΓ ρ y
  | .apply f x => (below_self hΓ f).apply (below_self hΓ x)

theorem scope_self (hΓ : SameGlobals Γ k) : ∀ (ρ : Scope) (y : String),
    Below Γ k (.expr (sym y) ρ) (.expr (sym y) ρ)
  | [], y => hΓ y
  | (_, z) :: ρ, y => below_sym_bind (ν := id) (below_self hΓ z) (fun hyp => hyp) fun _ =>
      scope_self hΓ ρ y

end

/-- What a name stands for may mention the name again, but it takes a demand to get there. -/
theorem sameGlobals (Γ : Globals) (k : Nat) : SameGlobals Γ k := by
  induction k with
  | zero =>
      intro y
      rw [global]
      split
      · exact refines_need fun c v hc _ => absurd hc (by omega)
      · exact refines_stuck
  | succ k ih =>
      intro y
      rw [global]
      split
      · rename_i x hx
        have hnext : next Γ (.expr (sym y) []) = .of x := by
          simp [next, nextExpr, global, hx]
        exact (Refines.of_below (below_self ih x)).same (Same.of_of hnext).symm
      · exact refines_stuck

theorem Matches.refl (v : Val) : Matches Γ k v (.ready v) :=
  matches_self (sameGlobals Γ k) v

/-- **Every computation stands for itself.** -/
theorem Below.refl (x : Arg) : Below Γ k x x :=
  below_self (sameGlobals Γ k) x

theorem scope_refl (ρ : Scope) (y : String) : Below Γ k (.expr (sym y) ρ) (.expr (sym y) ρ) :=
  scope_self (sameGlobals Γ k) ρ y

/-! ### Replacing what is above -/

/-- `y` stands for `x`, whatever the number of demands. -/
def Represents (Γ : Globals) (x y : Arg) : Prop :=
  ∀ k, Below Γ k x y

/-- Two computations that stand for each other. -/
def Equiv (Γ : Globals) (x y : Arg) : Prop :=
  Represents Γ x y ∧ Represents Γ y x

/-- Whatever `x` stands for, `y` stands for. -/
def Covers (Γ : Globals) (x y : Arg) : Prop :=
  ∀ k n, Refines Γ k n x → Refines Γ k n y

section Covers

variable {y : Arg}

theorem Same.covers (h : Same Γ x y) : Covers Γ x y :=
  fun _ _ hn => hn.same h

theorem Covers.trans (h : Covers Γ x y) (h' : Covers Γ y z) : Covers Γ x z :=
  fun k n hn => h' k n (h k n hn)

theorem Covers.represents (h : Covers Γ x y) : Represents Γ x y :=
  fun k => h k _ (Below.refl x)

theorem Represents.matches (h : Represents Γ x y) (hx : Evals Γ x v) : Matches Γ k v y := by
  obtain ⟨c, hc⟩ := hx
  have hm := (h (k + c)).matches (Nat.le_add_left c k) hc
  rwa [Nat.add_sub_cancel] at hm

theorem Represents.cons {hd tl : Arg} (h : Represents Γ x y) (hx : Evals Γ x (.cons hd tl)) :
    ∃ hd' tl', Evals Γ y (.cons hd' tl') ∧ Represents Γ hd hd' ∧ Represents Γ tl tl' := by
  obtain ⟨hd', tl', hy, -⟩ := h.matches (k := 0) hx
  have hparts : ∀ k, Below Γ k hd hd' ∧ Below Γ k tl tl' := by
    intro k
    obtain ⟨hd'', tl'', hy', hparts⟩ := h.matches (k := k + 1) hx
    cases hy.unique hy'
    exact hparts k (Nat.lt_succ_self k)
  exact ⟨hd', tl', hy, fun k => (hparts k).1, fun k => (hparts k).2⟩

theorem Equiv.symm (h : Equiv Γ x y) : Equiv Γ y x :=
  ⟨h.2, h.1⟩

theorem Equiv.apply (h : Equiv Γ x y) (h' : Equiv Γ z z') : Equiv Γ (.apply x z) (.apply y z') :=
  ⟨fun k => (h.1 k).apply (h'.1 k), fun k => (h.2 k).apply (h'.2 k)⟩

theorem Equiv.refl (x : Arg) : Equiv Γ x x :=
  ⟨fun _ => .refl x, fun _ => .refl x⟩

theorem Same.equiv (h : Same Γ x y) : Equiv Γ x y :=
  ⟨fun _ => (Below.refl x).same h, fun _ => (Below.refl y).same h.symm⟩

theorem Equiv.cons {hd tl : Arg} (h : Equiv Γ x y) (hx : Evals Γ x (.cons hd tl)) :
    ∃ hd' tl', Evals Γ y (.cons hd' tl') ∧ Equiv Γ hd hd' ∧ Equiv Γ tl tl' := by
  obtain ⟨hd', tl', hy, hhd, htl⟩ := h.1.cons hx
  obtain ⟨hd'', tl'', hx', hhd', htl'⟩ := h.2.cons hy
  cases hx.unique hx'
  exact ⟨hd', tl', hy, ⟨hhd, hhd'⟩, ⟨htl, htl'⟩⟩

theorem Matches.selects (h : Matches Γ k v x) (hx : ∀ u, Evals Γ x u → u.Selects) : v.Selects := by
  cases v with
  | int n => exact hx _ h
  | bool b => exact Or.inr ⟨b, rfl⟩
  | nil => exact hx _ h
  | probe first => exact hx _ h
  | cons hd tl =>
      obtain ⟨_, _, hcons, -⟩ := h
      rcases hx _ hcons with hfun | ⟨b, hb⟩
      · cases hfun
      · cases hb
  | _ => exact Or.inl rfl

/-- **What is above may be replaced by what is equivalent to it.** -/
theorem Equiv.covers (h : Equiv Γ x y) : Covers Γ x y := by
  intro k n hn
  induction k using Nat.strongRecOn generalizing n x y with
  | _ k ih =>
      rw [refines_iff] at hn ⊢
      intro c v hc hv
      have hm := hn c v hc hv
      cases hfun : v.isFunction with
      | true =>
          rw [matches_function hfun] at hm ⊢
          refine ⟨fun u hu => (h.2.matches (k := 0) hu).selects hm.1, fun j hj z z' hz => ?_⟩
          exact ih j (by omega) (h.apply (.refl z')) _ (hm.2 j hj z z' hz)
      | false =>
          by_cases hcons : ∃ hd tl, v = .cons hd tl
          · obtain ⟨hd, tl, rfl⟩ := hcons
            obtain ⟨hd', tl', hx, hparts⟩ := hm
            obtain ⟨hd'', tl'', hy, hhd, htl⟩ := h.cons hx
            refine ⟨hd'', tl'', hy, fun j hj => ⟨?_, ?_⟩⟩
            · exact ih j (by omega) hhd _ (hparts j hj).1
            · exact ih j (by omega) htl _ (hparts j hj).2
          · have hdata : ∀ hd tl, v ≠ .cons hd tl := fun hd tl he => hcons ⟨hd, tl, he⟩
            have hx := hm.evals hfun hdata
            have hy := (h.1.matches (k := k - c) hx).evals hfun hdata
            exact (Matches.refl v).same (Same.of_evals hy).symm

theorem Equiv.trans (h : Equiv Γ x y) (h' : Equiv Γ y z) : Equiv Γ x z :=
  ⟨fun k => h'.covers k _ (h.1 k), fun k => h.symm.covers k _ (h'.2 k)⟩

theorem Stands.covers {e'' : Expr} (h : Stands Γ names ν e e')
    (hc : ∀ ρ, Spares names ρ → Covers Γ (.expr e' ρ) (.expr e'' ρ)) : Stands Γ names ν e e'' :=
  fun k ρ ρ' hρ' hρ => hc ρ' hρ' k _ (h k ρ ρ' hρ' hρ)

/-- An expression in two scopes in which its names are equivalent. -/
theorem equiv_expr (h : ∀ y ∈ e.free, Equiv Γ (.expr (sym y) ρ) (.expr (sym y) ρ')) :
    Equiv Γ (.expr e ρ) (.expr e ρ') :=
  ⟨fun k => Stands.refl e k ρ ρ' spares_nil fun y hy => (h y hy).1 k,
    fun k => Stands.refl e k ρ' ρ spares_nil fun y hy => (h y hy).2 k⟩

end Covers

end Decombinator.ByName
