/-
Idioms are only notation.

Every form that recognition produces abbreviates a term: a conditional is its test applied
to both branches, a let is a function applied to its value, a negation is a function that
swaps two arguments, and so on.  `Desugars` says which terms an expression abbreviates.
There are several, since the parameters of a negation and of a connective are left open.

Recognition keeps to the notation: its result abbreviates a term that is beta equivalent to
the one that was read.  Most idioms abbreviate that very term.  Only an application of a
function under lets is moved around, and there the parameter leaves the lets one by one.

This takes names that are not empty.  A body that is taken for a conjunction is told by the
names of its parts, and a part without a name counts as one with the empty name.
-/
import Decombinator.Proofs.Expr.Idioms
import Decombinator.Proofs.Folded.Facts

namespace Decombinator.Expr

open Folded (BetaEquiv)

/-! ### The notation -/

/-- The primitive that an operator abbreviates, if there is one. -/
def primOf? : BinOp → Option Prim
  | .add => some .add
  | .mul => some .mul
  | .div => some .div
  | .eq => some .eq
  | .lt => some .lt
  | .sub | .mod | .and | .or => none

/-- The terms that an expression abbreviates. -/
inductive Desugars : Expr → Folded → Prop
  | int (n : Int64) : Desugars (int n) (.int n)
  | sym (x : String) : Desugars (sym x) (.sym x)
  | prim (p : Prim) : Desugars (prim p) (.prim p)
  | true : Desugars (bool true) (.prim .t)
  | false : Desugars (bool false) .falsity
  | list {es : List Expr} {ts : List Folded} (h : List.Forall₂ Desugars es ts) :
      Desugars (list es) (.list ts)
  | neg {e : Expr} {t : Folded} (h : Desugars e t) : Desugars (neg e) (.ap (.prim .neg) t)
  | isNil {e : Expr} {t : Folded} (h : Desugars e t) : Desugars (isNil e) (.ap (.prim .isnil) t)
  | not {e : Expr} {t : Folded} {p q : String} (h : Desugars e t) (hpq : p ≠ q) (hp : p ∉ t.free)
      (hq : q ∉ t.free) :
      Desugars (not e) (.fn p (.fn q (.ap (.ap t (.sym q)) (.sym p))))
  | operator {op : BinOp} {p : Prim} {l r : Expr} {t u : Folded} (hop : primOf? op = some p)
      (hl : Desugars l t) (hr : Desugars r u) :
      Desugars (binary op l r) (.ap (.ap (.prim p) t) u)
  | or (v : String) {l r : Expr} {t u : Folded} (hl : Desugars l t) (hr : Desugars r u) :
      Desugars (binary .or l r) (.ap (.ap (.fn v (.ap (.sym v) (.sym v))) t) u)
  | and {v p : String} {l r : Expr} {t u : Folded} (hvp : v ≠ p) (hl : Desugars l t)
      (hr : Desugars r u) :
      Desugars (binary .and l r)
        (.ap (.ap (.fn v (.fn p (.ap (.ap (.sym v) (.sym p)) (.sym v)))) t) u)
  | andFlipped {v p : String} {l r : Expr} {t u : Folded} (hvp : v ≠ p) (hl : Desugars l t)
      (hr : Desugars r u) :
      Desugars (binary .and l r)
        (.ap (.ap (.fn v (.fn p (.ap (.ap (.sym p) (.sym v)) (.sym p)))) t) u)
  | cond {c a b : Expr} {t u v : Folded} (hc : Desugars c t) (ha : Desugars a u)
      (hb : Desugars b v) : Desugars (cond c a b) (.ap (.ap t u) v)
  | letCons (h t : String) {e b : Expr} {u v : Folded} (he : Desugars e u) (hb : Desugars b v) :
      Desugars (letCons h t e b) (.ap u (.fn h (.fn t v)))
  | letIn (x : String) {e b : Expr} {t u : Folded} (he : Desugars e t) (hb : Desugars b u) :
      Desugars (letIn x e b) (.ap (.fn x u) t)
  | call {f : Expr} {es : List Expr} {t : Folded} {ts : List Folded} (hf : Desugars f t)
      (h : List.Forall₂ Desugars es ts) : Desugars (call f es) (ts.foldl .ap t)
  | func (p : String) (ps : List String) {b : Expr} {t : Folded} (h : Desugars b t) :
      Desugars (func p ps b) ((p :: ps).foldr .fn t)

/-! ### Free names -/

theorem mem_free_foldl_ap {z : String} {ts : List Folded} :
    ∀ {t : Folded}, z ∈ (ts.foldl .ap t).free ↔ z ∈ t.free ∨ ∃ u ∈ ts, z ∈ u.free := by
  induction ts with
  | nil => intro t; simp
  | cons u ts ih =>
      intro t
      rw [List.foldl_cons, ih, Folded.mem_free_ap]
      simp [or_assoc]

theorem mem_free_foldr_fn {z : String} {ps : List String} {t : Folded} :
    z ∈ (ps.foldr .fn t).free ↔ z ∈ t.free ∧ z ∉ ps := by
  induction ps with
  | nil => simp
  | cons p ps ih =>
      rw [List.foldr_cons, Folded.mem_free_fn, ih]
      simp only [List.mem_cons, not_or]
      tauto

theorem exists_desugars {es : List Expr} {ts : List Folded} (h : List.Forall₂ Desugars es ts)
    {t : Folded} (ht : t ∈ ts) : ∃ e ∈ es, Desugars e t := by
  induction h with
  | nil => simp at ht
  | @cons e u es ts heu _ ih =>
      rcases List.mem_cons.mp ht with rfl | ht
      · exact ⟨e, by simp, heu⟩
      · obtain ⟨e', he', h⟩ := ih ht
        exact ⟨e', List.mem_cons_of_mem _ he', h⟩

/-- What an expression abbreviates has no free names but those of the expression. -/
theorem Desugars.mem_free {e : Expr} {t : Folded} {z : String} (h : Desugars e t)
    (hz : z ∈ t.free) : z ∈ e.free := by
  induction e generalizing t with
  | list es ih =>
      cases h with
      | list h =>
          obtain ⟨u, hu, hz⟩ := Folded.mem_free_list.mp hz
          obtain ⟨e, he, heu⟩ := exists_desugars h hu
          exact mem_freeAll.mpr ⟨e, he, ih e he heu hz⟩
  | call f es ihf ih =>
      cases h with
      | call hf h =>
          rw [free, List.mem_append]
          rcases mem_free_foldl_ap.mp hz with hz | ⟨u, hu, hz⟩
          · exact Or.inl (ihf hf hz)
          · obtain ⟨e, he, heu⟩ := exists_desugars h hu
            exact Or.inr (mem_freeAll.mpr ⟨e, he, ih e he heu hz⟩)
  | func p ps b ih =>
      cases h with
      | func _ _ h =>
          obtain ⟨hz, hps⟩ := mem_free_foldr_fn.mp hz
          rw [free, List.mem_filter]
          exact ⟨ih h hz, by simpa using hps⟩
  | _ => cases h <;> simp_all [free, Folded.free] <;> grind

/-! ### Recognition keeps to the notation -/

/-- A function of one more parameter abbreviates a function. -/
theorem Abstraction.desugars {p : String} {e e' : Expr} {t : Folded} (h : Abstraction p e e')
    (hp : p ∉ e.binders) (he : Desugars e t) : Desugars e' (.fn p t) := by
  cases h with
  | plain => exact .func p [] he
  | more q rest b =>
      cases he with
      | func _ _ hb => exact .func p (q :: rest) hb
  | @not q test hmp hmq =>
      cases he with
      | func _ _ hb =>
          cases hb with
          | cond hc ha hb =>
              cases ha
              cases hb
              have hpq : p ≠ q := fun he => hp (by simp [he])
              exact .not hc hpq (fun hz => notMem_free_of_mentions hmp (hc.mem_free hz))
                (fun hz => notMem_free_of_mentions hmq (hc.mem_free hz))

/-- What a function under lets abbreviates is a function of its first parameter. -/
theorem takeParam_desugars {f b : Expr} {p : String} {t : Folded}
    (h : takeParam f = some (p, b)) (hy : f.Hygienic) (hf : Desugars f t) :
    ∃ u, Desugars b u ∧ BetaEquiv (.fn p u) t := by
  fun_induction takeParam f generalizing b p t with
  | case1 x v body ih =>
      obtain ⟨⟨q, body'⟩, hbody, heq⟩ := Option.map_eq_some_iff.mp h
      obtain ⟨rfl, rfl⟩ := Prod.mk.inj heq
      obtain ⟨hbody', hqx, hqv⟩ := takeParam_letIn hbody hy
      cases hf with
      | @letIn _ _ _ a _ hv hb =>
          obtain ⟨u, hu, hequiv⟩ := ih hbody hbody' hb
          refine ⟨.ap (.fn x u) a, .letIn x hv hu, ?_⟩
          have hqa : q ∉ a.free := fun hz => hqv (hv.mem_free hz)
          exact (BetaEquiv.fn_out hqx hqa u).symm.trans (.ap (.fn x hequiv) (.refl a))
  | case2 q body =>
      obtain ⟨rfl, rfl⟩ := Prod.mk.inj (Option.some.inj h)
      cases hf with
      | @func _ _ _ u hb => exact ⟨u, hb, .refl _⟩
  | case3 q r rest body =>
      obtain ⟨rfl, rfl⟩ := Prod.mk.inj (Option.some.inj h)
      cases hf with
      | @func _ _ _ u hb => exact ⟨_, .func r rest hb, .refl _⟩
  | case4 => simp at h

theorem operatorOf_prim {g : Expr} {op : BinOp} (h : operatorOf? g = some op) :
    ∃ p, g = prim p ∧ primOf? op = some p := by
  unfold operatorOf? at h
  split at h <;> simp_all [primOf?] <;> (subst h; rfl)

/-! ### Calls, argument by argument -/

theorem Desugars.of_sym {x : String} {t : Folded} (h : Desugars (.sym x) t) : t = .sym x := by
  cases h
  rfl

/-- A call with one more argument abbreviates an application. -/
theorem Desugars.call_concat {g a : Expr} {args : List Expr} {t u : Folded}
    (h : Desugars (.call g args) t) (ha : Desugars a u) :
    Desugars (.call g (args ++ [a])) (.ap t u) := by
  cases h with
  | @call _ _ g' ts hg hargs =>
      have hcall := Desugars.call hg (List.rel_append hargs (.cons ha .nil))
      rwa [List.foldl_append] at hcall

theorem forall₂_concat {es : List Expr} {e : Expr} {ts : List Folded}
    (h : List.Forall₂ Desugars (es ++ [e]) ts) :
    ∃ us u, ts = us ++ [u] ∧ List.Forall₂ Desugars es us ∧ Desugars e u := by
  induction es generalizing ts with
  | nil =>
      obtain ⟨u, us, hu, hus, rfl⟩ := List.forall₂_cons_left_iff.mp h
      obtain rfl := List.forall₂_nil_left_iff.mp hus
      exact ⟨[], u, rfl, .nil, hu⟩
  | cons e' es ih =>
      obtain ⟨u', ts', hu', hts', rfl⟩ := List.forall₂_cons_left_iff.mp h
      obtain ⟨us, u, rfl, hus, hu⟩ := ih hts'
      exact ⟨u' :: us, u, rfl, .cons hu' hus, hu⟩

theorem Desugars.of_call_concat {g a : Expr} {args : List Expr} {d : Folded}
    (h : Desugars (.call g (args ++ [a])) d) :
    ∃ t u, d = .ap t u ∧ Desugars (.call g args) t ∧ Desugars a u := by
  cases h with
  | @call _ _ g' ts hg hargs =>
      obtain ⟨us, u, rfl, hus, hu⟩ := forall₂_concat hargs
      refine ⟨us.foldl .ap g', u, ?_, .call hg hus, hu⟩
      rw [List.foldl_append]
      rfl

theorem Desugars.of_call_nil {g : Expr} {t : Folded} (h : Desugars (.call g []) t) :
    Desugars g t := by
  cases h with
  | call hg hargs =>
      cases hargs
      exact hg

theorem Desugars.of_call_one {g a : Expr} {d : Folded} (h : Desugars (.call g [a]) d) :
    ∃ t u, d = .ap t u ∧ Desugars g t ∧ Desugars a u := by
  obtain ⟨t, u, hd, hg, ha⟩ := of_call_concat (show Desugars (.call g ([] ++ [a])) d from h)
  exact ⟨t, u, hd, hg.of_call_nil, ha⟩

theorem Desugars.of_call_two {g a b : Expr} {d : Folded} (h : Desugars (.call g [a, b]) d) :
    ∃ t u v, d = .ap (.ap t u) v ∧ Desugars g t ∧ Desugars a u ∧ Desugars b v := by
  obtain ⟨t, v, rfl, hg, hb⟩ := of_call_concat (show Desugars (.call g ([a] ++ [b])) d from h)
  obtain ⟨t, u, rfl, hg, ha⟩ := hg.of_call_one
  exact ⟨t, u, v, rfl, hg, ha, hb⟩

/-- A let and the function below it bind different names. -/
theorem ne_param_of_hygienic {v p : String} {l b : Expr} (hy : (letIn v l (func p [] b)).Hygienic) :
    v ≠ p := by
  have hdistinct := hy.distinct
  rw [binders_letIn, binders_func] at hdistinct
  intro he
  exact (List.nodup_cons.mp hdistinct).1 (by simp [he])

variable {dict : Dictionary} {lists : List String}

/-- Whatever an application is read as abbreviates an application. -/
theorem Reading.desugars {f x e : Expr} {t u : Folded} (h : Reading dict lists f x e)
    (hy : f.Hygienic) (hf : Desugars f t) (hx : Desugars x u) :
    ∃ d, Desugars e d ∧ BetaEquiv d (.ap t u) := by
  cases h with
  | bind hp =>
      obtain ⟨b, hb, hequiv⟩ := takeParam_desugars hp hy hf
      exact ⟨_, .letIn _ hx hb, .ap hequiv (.refl u)⟩
  -- Every other idiom abbreviates the application itself.
  | neg =>
      cases hf
      exact ⟨_, .neg hx, .refl _⟩
  | isNil =>
      cases hf
      exact ⟨_, .isNil hx, .refl _⟩
  | call => exact ⟨_, .call hf (.cons hx .nil), .refl _⟩
  | extend g args => exact ⟨_, hf.call_concat hx, .refl _⟩
  | operator hop a =>
      obtain ⟨p, rfl, hprim⟩ := operatorOf_prim hop
      obtain ⟨_, _, rfl, hg, ha⟩ := hf.of_call_one
      cases hg
      exact ⟨_, .operator hprim ha hx, .refl _⟩
  | choice _ a =>
      obtain ⟨_, _, rfl, hg, ha⟩ := hf.of_call_one
      exact ⟨_, .cond hg ha hx, .refl _⟩
  | predicate _ a =>
      obtain ⟨_, _, rfl, hg, ha⟩ := hf.of_call_concat
      exact ⟨_, .cond hg ha hx, .refl _⟩
  | parts g h t b =>
      cases hf
      cases hx with
      | func _ _ hb => exact ⟨_, .letCons h t (.sym g) hb, .refl _⟩
  | partsThen g h t p ps b =>
      cases hf
      cases hx with
      | func _ _ hb => exact ⟨_, .letCons h t (.sym g) (.func p ps hb), .refl _⟩
  | or v l =>
      cases hf with
      | letIn _ hl hb =>
          obtain ⟨_, _, rfl, hv, hv'⟩ := hb.of_call_one
          rw [hv.of_sym, hv'.of_sym]
          exact ⟨_, .or v hl hx, .refl _⟩
  | and v p l =>
      have hvp := ne_param_of_hygienic hy
      cases hf with
      | letIn _ hl hb =>
          cases hb with
          | func _ _ hb =>
              obtain ⟨_, _, _, rfl, hv, hp, hv'⟩ := hb.of_call_two
              rw [hv.of_sym, hp.of_sym, hv'.of_sym]
              exact ⟨_, .and hvp hl hx, .refl _⟩
  | andFlipped v p l =>
      have hvp := ne_param_of_hygienic hy
      cases hf with
      | letIn _ hl hb =>
          cases hb with
          | func _ _ hb =>
              obtain ⟨_, _, _, rfl, hp, hv, hp'⟩ := hb.of_call_two
              rw [hp.of_sym, hv.of_sym, hp'.of_sym]
              exact ⟨_, .andFlipped hvp hl hx, .refl _⟩

theorem recogniseAll_desugars {items : List Folded}
    (ih : ∀ t ∈ items, ∀ lists, t.Hygienic → "" ∉ t.binders →
      ∃ d, Desugars (recognise dict t lists).1 d ∧ BetaEquiv d t) :
    ∀ lists, Hygiene (Folded.bindersAll items) (Folded.freeAll items) →
      "" ∉ Folded.bindersAll items →
      ∃ ds, List.Forall₂ Desugars (recogniseAll dict items lists).1 ds ∧
        List.Forall₂ BetaEquiv ds items := by
  induction items with
  | nil => exact fun _ _ _ => ⟨[], .nil, .nil⟩
  | cons t ts ihts =>
      intro lists hy hempty
      rw [Folded.bindersAll, List.mem_append, not_or] at hempty
      obtain ⟨d, hd, hequiv⟩ := ih t (by simp) lists hy.left hempty.1
      obtain ⟨ds, hds, hequivs⟩ := ihts (fun u hu => ih u (List.mem_cons_of_mem _ hu))
        (recognise dict t lists).2 hy.right hempty.2
      exact ⟨d :: ds, .cons hd hds, .cons hequiv hequivs⟩

theorem recognise_desugars (t : Folded) :
    ∀ lists, t.Hygienic → "" ∉ t.binders →
      ∃ d, Desugars (recognise dict t lists).1 d ∧ BetaEquiv d t := by
  induction t with
  | fn p body ih =>
      intro lists hy hempty
      rw [Folded.binders, List.mem_cons, not_or] at hempty
      obtain ⟨d, hd, hequiv⟩ := ih lists hy.under hempty.2
      have hretains := @recognise_retains dict body lists hy.under hempty.2
      have hp : p ∉ (recognise dict body lists).1.binders := fun h =>
        (List.nodup_cons.mp hy.distinct).1 (hretains.mem_binders h)
      exact ⟨.fn p d, (abstract_abstraction p _).desugars hp hd, .fn p hequiv⟩
  | ap f x ihf ihx =>
      intro lists hy hempty
      rw [Folded.binders, List.mem_append, not_or] at hempty
      obtain ⟨df, hdf, hequivf⟩ := ihf lists hy.left hempty.1
      obtain ⟨dx, hdx, hequivx⟩ := ihx (recognise dict f lists).2 hy.right hempty.2
      have hretains := @recognise_retains dict f lists hy.left hempty.1
      have hread := applyTo_reading dict (recognise dict f lists).2
        (recognise dict x (recognise dict f lists).2).2 (recognise dict x (recognise dict f lists).2).1
        fun h => hempty.1 (hretains.mem_binders h)
      obtain ⟨d, hd, hequiv⟩ := hread.desugars (hretains.hygiene hy.left) hdf hdx
      exact ⟨d, hd, hequiv.trans (.ap hequivf hequivx)⟩
  | list items ih =>
      intro lists hy hempty
      obtain ⟨ds, hds, hequiv⟩ := recogniseAll_desugars ih lists hy hempty
      exact ⟨.list ds, .list hds, .list hequiv⟩
  | sym x => exact fun _ _ _ => ⟨_, .sym x, .refl _⟩
  | int n => exact fun _ _ _ => ⟨_, .int n, .refl _⟩
  | prim p =>
      intro lists _ _
      unfold recognise
      by_cases hp : p = .t
      · rw [if_pos hp, hp]
        exact ⟨_, .true, .refl _⟩
      · rw [if_neg hp]
        exact ⟨_, .prim p, .refl _⟩
  | falsity => exact fun _ _ _ => ⟨_, .false, .refl _⟩

/-- **Idioms are only notation**: a hygienic term whose parameters all have names is read as an
expression that abbreviates it, up to beta equivalence. -/
theorem ofFolded_desugars (dict : Dictionary) (t : Folded) (hy : t.Hygienic)
    (hnamed : "" ∉ t.binders) : ∃ d, Desugars (ofFolded dict t) d ∧ BetaEquiv d t :=
  recognise_desugars t [] hy hnamed

/-- `(λx. λy. add x y) (isnil z) z`, where the let of `x` gives way to that of `y`. -/
theorem ofFolded_desugars_sum :
    let t : Folded := .ap (.ap (.fn "x" (.fn "y" (.ap (.ap (.prim .add) (.sym "x")) (.sym "y"))))
      (.ap (.prim .isnil) (.sym "z"))) (.sym "z")
    t.Hygienic ∧ "" ∉ t.binders ∧
      ofFolded .empty t = letIn "y" (sym "z") (letIn "x" (isNil (sym "z"))
        (binary .add (sym "x") (sym "y"))) ∧
      ∃ d, Desugars (ofFolded .empty t) d ∧ BetaEquiv d t := by
  intro t
  have hy : t.Hygienic := ⟨by simp [t, Folded.binders], by simp [t, Folded.binders, Folded.free]⟩
  have hnamed : "" ∉ t.binders := by simp [t, Folded.binders]
  exact ⟨hy, hnamed, rfl, ofFolded_desugars .empty t hy hnamed⟩

/-- `(λ. λp. 5 p 7) 1 2`, where the outer parameter has the empty name: neither 5 nor 7 is a
symbol, and the term is taken for a conjunction of 1 and 2. -/
theorem ofFolded_desugars_unnamed :
    let t : Folded := .ap (.ap (.fn "" (.fn "p" (.ap (.ap (.int 5) (.sym "p")) (.int 7)))) (.int 1))
      (.int 2)
    t.Hygienic ∧ ofFolded .empty t = binary .and (int 1) (int 2) ∧
      ¬ ∃ d, Desugars (ofFolded .empty t) d ∧ BetaEquiv d t := by
  intro t
  have hy : t.Hygienic := ⟨by simp [t, Folded.binders], by simp [t, Folded.binders, Folded.free]⟩
  have hread : ofFolded .empty t = binary .and (int 1) (int 2) := rfl
  refine ⟨hy, hread, ?_⟩
  rw [hread]
  intro hex
  obtain ⟨d, hd, hequiv⟩ := hex
  -- Let 5 answer any two arguments with the mark, and 1 and 2 answer nothing.
  let ints : Int64 → Set Folded.Fact := fun n => {c | n = 5 ∧ c = .maps [] (.maps [] .mark)}
  have hmark : Folded.Fact.mark ∈ Folded.Fact.of ints (fun _ => ∅) t := by
    rw [Folded.Fact.of_apply (Folded.Fact.of_redex _ _ _)]
    exact ⟨[], ⟨[], by simp [Folded.Fact.of, ints], by simp⟩, by simp⟩
  rw [← Folded.Fact.of_betaEquiv hequiv] at hmark
  have hone : Folded.Fact.of ints (fun _ => ∅) (.int 1) = ∅ := by simp [Folded.Fact.of, ints]
  have htwo : Folded.Fact.of ints (fun _ => ∅) (.int 2) = ∅ := by simp [Folded.Fact.of, ints]
  cases hd with
  | operator hop => cases hop
  | @and v p _ _ _ _ hvp hl hr =>
      cases hl
      cases hr
      rw [Folded.Fact.of_apply (Folded.Fact.of_redex _ _ _), hone, htwo] at hmark
      obtain ⟨_, ⟨_, hv, -⟩, -⟩ := hmark
      simp [Folded.Fact.of, Function.update_of_ne hvp] at hv
  | andFlipped hvp hl hr =>
      cases hl
      cases hr
      rw [Folded.Fact.of_apply (Folded.Fact.of_redex _ _ _), hone, htwo] at hmark
      obtain ⟨_, ⟨_, hp, -⟩, -⟩ := hmark
      simp [Folded.Fact.of] at hp

end Decombinator.Expr
