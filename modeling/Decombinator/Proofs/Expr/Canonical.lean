/-
Renaming does not depend on the names of binders.

Of two alpha equivalent expressions, both hygienic, one is the other with its names mapped, by a
map that keeps names apart and leaves references alone: the binders of the one, from left to
right, become those of the other.  Under such a map the renamer goes through the same motions.  It
meets the mapped names in the same order, has the same names reserved, and hands out the same
numbers, so it ends in the same expression.
-/
import Decombinator.Proofs.Expr.Nameless
import Decombinator.Proofs.Locality

namespace Decombinator.Expr

/-! ### What a nameless form still tells -/

/-- The name of a reference to nothing that is bound. -/
def Ref.names : Ref → List String
  | bound _ => []
  | free x => [x]

theorem Ref.names_up (r : Ref) : r.up.names = r.names := by
  cases r <;> rfl

namespace Nameless

mutual

/-- The names of references. -/
def free : Nameless → List String
  | int _ | bool _ | prim _ => []
  | ref r => r.names
  | list es => freeAll es
  | neg a | not a | isNil a => a.free
  | binary _ a b => a.free ++ b.free
  | cond a b c => a.free ++ (b.free ++ c.free)
  | matchList v e b => v.free ++ (e.free ++ b.free)
  | letCons v b | letIn v b => v.free ++ b.free
  | call f es => f.free ++ freeAll es
  | func _ b => b.free

def freeAll : List Nameless → List String
  | [] => []
  | e :: es => e.free ++ freeAll es

end

mutual

/-- The number of binding positions. -/
def width : Nameless → Nat
  | int _ | bool _ | prim _ | ref _ => 0
  | list es => widthAll es
  | neg a | not a | isNil a => a.width
  | binary _ a b => a.width + b.width
  | cond a b c => a.width + (b.width + c.width)
  | matchList v e b => v.width + (e.width + b.width) + 2
  | letCons v b => v.width + b.width + 2
  | letIn v b => v.width + b.width + 1
  | call f es => f.width + widthAll es
  | func n b => b.width + n

def widthAll : List Nameless → Nat
  | [] => 0
  | e :: es => e.width + widthAll es

end

end Nameless

theorem mem_inside {xs Δ : List String} {z : String} : z ∈ inside xs Δ ↔ z ∈ xs ∨ z ∈ Δ := by
  induction xs generalizing Δ with
  | nil => simp [inside]
  | cons x xs ih =>
      rw [inside, ih]
      simp only [List.mem_cons]
      grind

theorem mem_names_resolve {Δ : List String} {x z : String} :
    z ∈ (resolve Δ x).names ↔ z = x ∧ z ∉ Δ := by
  induction Δ with
  | nil => simp [resolve, Ref.names]
  | cons y Δ ih =>
      by_cases hxy : x = y
      · subst hxy
        simp [resolve_cons_self, Ref.names]
        grind
      · rw [resolve_cons_ne hxy, Ref.names_up, ih]
        simp only [List.mem_cons]
        grind

theorem mem_freeAll_nameless {es : List Expr} {Δ : List String} {z : String}
    (ih : ∀ e ∈ es, (z ∈ (e.nameless Δ).free ↔ z ∈ e.free ∧ z ∉ Δ)) :
    z ∈ Nameless.freeAll (namelessAll Δ es) ↔ z ∈ freeAll es ∧ z ∉ Δ := by
  induction es with
  | nil => simp [namelessAll, Nameless.freeAll, freeAll]
  | cons e es ihes =>
      simp only [namelessAll, Nameless.freeAll, freeAll, List.mem_append]
      rw [ih e (by simp), ihes fun a ha => ih a (List.mem_cons_of_mem _ ha), or_and_right]

theorem mem_free_nameless {e : Expr} {z : String} :
    ∀ {Δ : List String}, z ∈ (e.nameless Δ).free ↔ z ∈ e.free ∧ z ∉ Δ := by
  induction e with
  | list es ih => exact mem_freeAll_nameless fun e he => ih e he
  | call f es ihf ih =>
      intro Δ
      simp only [nameless, Nameless.free, free, List.mem_append, ihf,
        mem_freeAll_nameless fun e he => ih e he, or_and_right]
  | sym x =>
      intro Δ
      simp only [nameless, Nameless.free, free, mem_names_resolve, List.mem_singleton]
  | _ =>
      intro Δ
      simp_all only [nameless, Nameless.free, free, mem_inside, List.mem_append, List.mem_filter,
        decide_eq_true_eq, List.mem_cons, List.not_mem_nil] <;> tauto

theorem widthAll_nameless {es : List Expr} {Δ : List String}
    (ih : ∀ e ∈ es, (e.nameless Δ).width = e.binders.length) :
    Nameless.widthAll (namelessAll Δ es) = (es.flatMap binders).length := by
  induction es with
  | nil => rfl
  | cons e es ihes =>
      rw [namelessAll, Nameless.widthAll, ih e (by simp), List.flatMap_cons, List.length_append,
        ihes fun a ha => ih a (List.mem_cons_of_mem _ ha)]

theorem width_nameless (e : Expr) : ∀ Δ, (e.nameless Δ).width = e.binders.length := by
  induction e with
  | list es ih =>
      intro Δ
      rw [binders_list, nameless, Nameless.width, widthAll_nameless fun e he => ih e he Δ]
  | call f es ihf ih =>
      intro Δ
      rw [binders_call, nameless, Nameless.width, ihf, widthAll_nameless fun e he => ih e he Δ,
        List.length_append]
  | _ =>
      intro Δ
      simp_all [nameless, Nameless.width] <;> omega

theorem AlphaEq.mem_free_iff {e e' : Expr} (h : AlphaEq e e') (z : String) :
    z ∈ e.free ↔ z ∈ e'.free := by
  have hz : z ∈ e.free ↔ z ∈ (e.nameless []).free := by simp [mem_free_nameless]
  rw [hz, h, mem_free_nameless]
  simp

theorem length_binders_eq {e e' : Expr} {Δ Δ' : List String} (h : e.nameless Δ = e'.nameless Δ') :
    e'.binders.length = e.binders.length := by
  rw [← width_nameless e Δ, h, width_nameless]

/-! ### Alpha equivalent expressions differ by a map -/

variable {μ : String → String}

/-- A symbol and its counterpart, below binders and their counterparts. -/
theorem eq_of_resolve_eq {Δ : List String} {x y : String}
    (h : resolve Δ x = resolve (Δ.map μ) y) (hfix : x ∉ Δ → μ x = x) : y = μ x := by
  induction Δ with
  | nil =>
      have hxy : x = y := Ref.free.inj h
      rw [hfix (by simp), hxy]
  | cons z Δ ih =>
      rw [List.map_cons] at h
      by_cases hx : x = z
      · rw [hx, resolve_cons_self] at h
        by_cases hy : y = μ z
        · rw [hy, hx]
        · rw [resolve_cons_ne hy] at h
          exact absurd h.symm (Ref.up_ne_zero _)
      · rw [resolve_cons_ne hx] at h
        by_cases hy : y = μ z
        · rw [hy, resolve_cons_self] at h
          exact absurd h (Ref.up_ne_zero _)
        · rw [resolve_cons_ne hy] at h
          exact ih (Ref.up_injective h) fun hmem => hfix (by simp [hx, hmem])

/-- The binders of a part go with those of its counterpart. -/
theorem binders_append {a a' : Expr} {Δ Δ' bs bs' : List String}
    (h : a.nameless Δ = a'.nameless Δ') (hb : a'.binders ++ bs' = (a.binders ++ bs).map μ) :
    a'.binders = a.binders.map μ ∧ bs' = bs.map μ := by
  rw [List.map_append] at hb
  exact List.append_inj hb (by rw [List.length_map, length_binders_eq h])

theorem map_inside (xs Δ : List String) :
    (inside xs Δ).map μ = inside (xs.map μ) (Δ.map μ) := by
  induction xs generalizing Δ with
  | nil => rfl
  | cons x xs ih => rw [inside, ih, List.map_cons, List.map_cons, inside]

/-- Names that are left alone outside of some binders are left alone below them. -/
theorem fixed_inside {fs xs Δ : List String} (h : ∀ x ∈ fs, x ∉ xs → x ∉ Δ → μ x = x) :
    ∀ x ∈ fs, x ∉ inside xs Δ → μ x = x := by
  intro x hx hmem
  obtain ⟨hxs, hΔ⟩ := not_or.mp (mt mem_inside.mpr hmem)
  exact h x hx hxs hΔ

theorem eq_mapNamesAll {es : List Expr} {Δ : List String}
    (ih : ∀ e ∈ es, ∀ {e' : Expr}, e.nameless Δ = e'.nameless (Δ.map μ) →
      e'.binders = e.binders.map μ → (∀ x ∈ e.free, x ∉ Δ → μ x = x) → e' = e.mapNames μ) :
    ∀ {es' : List Expr}, namelessAll Δ es = namelessAll (Δ.map μ) es' →
      es'.flatMap binders = (es.flatMap binders).map μ →
      (∀ x ∈ freeAll es, x ∉ Δ → μ x = x) → es' = mapNamesAll μ es := by
  induction es with
  | nil =>
      intro es' h _ _
      cases es' with
      | nil => rfl
      | cons e' es' => cases h
  | cons e es ihes =>
      intro es' h hb hfix
      cases es' with
      | nil => cases h
      | cons e' es' =>
          simp only [namelessAll, List.cons.injEq] at h
          obtain ⟨he, hes⟩ := h
          rw [List.flatMap_cons, List.flatMap_cons] at hb
          obtain ⟨hbe, hbes⟩ := binders_append he hb
          rw [mapNamesAll, ih e (by simp) he hbe fun x hx => hfix x (List.mem_append_left _ hx),
            ihes (fun a ha => ih a (List.mem_cons_of_mem _ ha)) hes hbes
              fun x hx => hfix x (List.mem_append_right _ hx)]

/-- **An alpha equivalent expression whose binders are the mapped ones is the mapped
expression**, if the map leaves references alone. -/
theorem eq_mapNames {e e' : Expr} {Δ : List String} (h : e.nameless Δ = e'.nameless (Δ.map μ))
    (hb : e'.binders = e.binders.map μ) (hfix : ∀ x ∈ e.free, x ∉ Δ → μ x = x) :
    e' = e.mapNames μ := by
  induction e generalizing Δ e' with
  | int n =>
      cases e' <;> simp only [nameless, reduceCtorEq, Nameless.int.injEq] at h
      rw [h, mapNames]
  | sym x =>
      cases e' <;> simp only [nameless, reduceCtorEq, Nameless.ref.injEq] at h
      rw [mapNames, eq_of_resolve_eq h (hfix x (by simp [free]))]
  | bool b =>
      cases e' <;> simp only [nameless, reduceCtorEq, Nameless.bool.injEq] at h
      rw [h, mapNames]
  | prim p =>
      cases e' <;> simp only [nameless, reduceCtorEq, Nameless.prim.injEq] at h
      rw [h, mapNames]
  | list es ih =>
      cases e' <;> simp only [nameless, reduceCtorEq, Nameless.list.injEq] at h
      rw [binders_list, binders_list] at hb
      rw [mapNames, eq_mapNamesAll (fun e he => ih e he) h hb hfix]
  | neg a ih =>
      cases e' <;> simp only [nameless, reduceCtorEq, Nameless.neg.injEq] at h
      rw [mapNames, ih h hb hfix]
  | not a ih =>
      cases e' <;> simp only [nameless, reduceCtorEq, Nameless.not.injEq] at h
      rw [mapNames, ih h hb hfix]
  | isNil a ih =>
      cases e' <;> simp only [nameless, reduceCtorEq, Nameless.isNil.injEq] at h
      rw [mapNames, ih h hb hfix]
  | binary op a b iha ihb =>
      cases e' <;> simp only [nameless, reduceCtorEq, Nameless.binary.injEq] at h
      obtain ⟨rfl, ha, hb'⟩ := h
      rw [binders_binary, binders_binary] at hb
      obtain ⟨hba, hbb⟩ := binders_append ha hb
      rw [mapNames, iha ha hba fun x hx => hfix x (by simp [free, hx]),
        ihb hb' hbb fun x hx => hfix x (by simp [free, hx])]
  | cond a b c iha ihb ihc =>
      cases e' <;> simp only [nameless, reduceCtorEq, Nameless.cond.injEq] at h
      obtain ⟨ha, hb', hc⟩ := h
      rw [binders_cond, binders_cond] at hb
      obtain ⟨hba, hb⟩ := binders_append ha hb
      obtain ⟨hbb, hbc⟩ := binders_append hb' hb
      rw [mapNames, iha ha hba fun x hx => hfix x (by simp [free, hx]),
        ihb hb' hbb fun x hx => hfix x (by simp [free, hx]),
        ihc hc hbc fun x hx => hfix x (by simp [free, hx])]
  | matchList v e hd tl b ihv ihe ihb =>
      cases e' <;> simp only [nameless, reduceCtorEq, Nameless.matchList.injEq] at h
      obtain ⟨hv, he, hbody⟩ := h
      simp only [binders_matchList, List.map_cons, List.cons.injEq] at hb
      obtain ⟨rfl, rfl, hb⟩ := hb
      obtain ⟨hbv, hb⟩ := binders_append hv hb
      obtain ⟨hbe, hbb⟩ := binders_append he hb
      rw [mapNames, ihv hv hbv fun x hx => hfix x (by simp [free, hx]),
        ihe he hbe fun x hx => hfix x (by simp [free, hx]),
        ihb (Δ := inside [hd, tl] Δ) (by rw [map_inside]; exact hbody) hbb]
      exact fixed_inside fun x hx hxs => hfix x (List.mem_append_right _ (List.mem_append_right _
        (List.mem_filter.mpr ⟨hx, by simpa using hxs⟩)))
  | letCons hd tl v b ihv ihb =>
      cases e' <;> simp only [nameless, reduceCtorEq, Nameless.letCons.injEq] at h
      obtain ⟨hv, hbody⟩ := h
      simp only [binders_letCons, List.map_cons, List.cons.injEq] at hb
      obtain ⟨rfl, rfl, hb⟩ := hb
      obtain ⟨hbv, hbb⟩ := binders_append hv hb
      rw [mapNames, ihv hv hbv fun x hx => hfix x (by simp [free, hx]),
        ihb (Δ := inside [hd, tl] Δ) (by rw [map_inside]; exact hbody) hbb]
      exact fixed_inside fun x hx hxs => hfix x (List.mem_append_right _
        (List.mem_filter.mpr ⟨hx, by simpa using hxs⟩))
  | letIn x v b ihv ihb =>
      cases e' <;> simp only [nameless, reduceCtorEq, Nameless.letIn.injEq] at h
      obtain ⟨hv, hbody⟩ := h
      simp only [binders_letIn, List.map_cons, List.cons.injEq] at hb
      obtain ⟨rfl, hb⟩ := hb
      obtain ⟨hbv, hbb⟩ := binders_append hv hb
      rw [mapNames, ihv hv hbv fun x hx => hfix x (by simp [free, hx]),
        ihb (Δ := inside [x] Δ) (by rw [map_inside]; exact hbody) hbb]
      exact fixed_inside fun y hy hys => hfix y (List.mem_append_right _
        (List.mem_filter.mpr ⟨hy, by simpa using hys⟩))
  | call f es ihf ih =>
      cases e' <;> simp only [nameless, reduceCtorEq, Nameless.call.injEq] at h
      obtain ⟨hf, hes⟩ := h
      rw [binders_call, binders_call] at hb
      obtain ⟨hbf, hbes⟩ := binders_append hf hb
      rw [mapNames, ihf hf hbf fun x hx => hfix x (List.mem_append_left _ hx),
        eq_mapNamesAll (fun e he => ih e he) hes hbes]
      exact fun x hx => hfix x (List.mem_append_right _ hx)
  | func p ps b ih =>
      cases e' <;> simp only [nameless, reduceCtorEq, Nameless.func.injEq] at h
      obtain ⟨hlen, hbody⟩ := h
      simp only [binders_func, List.map_cons, List.map_append, List.cons.injEq] at hb
      obtain ⟨rfl, hb⟩ := hb
      obtain ⟨rfl, hbb⟩ := List.append_inj hb (by rw [List.length_map]; omega)
      rw [mapNames, ih (Δ := inside (p :: ps) Δ) (by rw [map_inside]; exact hbody) hbb]
      exact fixed_inside fun x hx hxs => hfix x (List.mem_filter.mpr ⟨hx, by simpa using hxs⟩)

/-- Different names can be sent to names of choice, and all others left alone. -/
theorem exists_map_eq {xs : List String} (hxs : xs.Nodup) :
    ∀ {ys : List String}, ys.length = xs.length →
      ∃ μ : String → String, ys = xs.map μ ∧ ∀ z, z ∉ xs → μ z = z := by
  induction xs with
  | nil =>
      intro ys hlen
      exact ⟨id, List.eq_nil_of_length_eq_zero hlen, fun _ _ => rfl⟩
  | cons x xs ih =>
      intro ys hlen
      cases ys with
      | nil => cases hlen
      | cons y ys =>
          obtain ⟨hx, hxs⟩ := List.nodup_cons.mp hxs
          obtain ⟨μ, rfl, hfix⟩ := ih hxs (Nat.succ.inj hlen)
          refine ⟨Function.update μ x y, ?_, fun z hz => ?_⟩
          · rw [List.map_cons, Function.update_self]
            refine congrArg (y :: ·) (List.map_congr_left fun z hz => ?_)
            have hzx : z ≠ x := fun he => hx (he ▸ hz)
            rw [Function.update_of_ne hzx]
          · obtain ⟨hzx, hzxs⟩ := not_or.mp (mt List.mem_cons.mpr hz)
            rw [Function.update_of_ne hzx, hfix z hzxs]

/-- **Hygienic expressions that are alpha equivalent differ by a map of names** that keeps names
apart and leaves references alone. -/
theorem AlphaEq.exists_mapNames {e e' : Expr} (h : AlphaEq e e') (he : e.Hygienic)
    (he' : e'.Hygienic) :
    ∃ μ : String → String, e' = e.mapNames μ ∧ (∀ x ∈ e.free, μ x = x) ∧
      ∀ x, x ∈ e.binders ∨ x ∈ e.free → ∀ y, y ∈ e.binders ∨ y ∈ e.free → μ x = μ y → x = y := by
  obtain ⟨μ, hμ, hfix⟩ := exists_map_eq he.distinct (length_binders_eq h)
  have hfree : ∀ x ∈ e.free, μ x = x := fun x hx => hfix x fun hb => he.unfree x hb hx
  have hbinders : ∀ x ∈ e.binders, ∀ y ∈ e.binders, μ x = μ y → x = y := by
    have hdistinct : (e.binders.map μ).Nodup := hμ ▸ he'.distinct
    intro x hx y hy heq
    exact List.inj_on_of_nodup_map hdistinct hx hy heq
  -- A binder is not sent to a reference, which the other expression has as well.
  have hapart : ∀ x ∈ e.binders, ∀ y ∈ e.free, μ x ≠ μ y := by
    intro x hx y hy heq
    rw [hfree y hy] at heq
    have hmem : y ∈ e'.binders := by
      rw [hμ, ← heq]
      exact List.mem_map_of_mem hx
    exact he'.unfree y hmem ((h.mem_free_iff y).mp hy)
  refine ⟨μ, eq_mapNames (Δ := []) h hμ fun x hx _ => hfree x hx, hfree, ?_⟩
  rintro x (hx | hx) y (hy | hy) heq
  · exact hbinders x hx y hy heq
  · exact absurd heq (hapart x hx y hy)
  · exact absurd heq.symm (hapart y hy x hx)
  · rw [hfree x hx, hfree y hy] at heq
    exact heq

/-! ### Mapping the names of a mapped expression -/

theorem mapNames_mapNames (ν : String → String) (e : Expr) :
    (e.mapNames μ).mapNames ν = e.mapNames (ν ∘ μ) := by
  induction e with
  | list es ih =>
      simp only [mapNames, mapNamesAll_eq_map, List.map_map]
      exact congrArg list (List.map_congr_left ih)
  | call f es ihf ih =>
      simp only [mapNames, mapNamesAll_eq_map, List.map_map, ihf]
      exact congrArg (call _) (List.map_congr_left ih)
  | _ => simp_all [mapNames]

theorem symbols_mapNames (e : Expr) : (e.mapNames μ).symbols = e.symbols.map μ := by
  induction e with
  | list es ih =>
      rw [mapNames, mapNamesAll_eq_map, symbols_list, symbols_list, List.flatMap_map,
        List.map_flatMap]
      exact List.flatMap_congr ih
  | call f es ihf ih =>
      rw [mapNames, mapNamesAll_eq_map, symbols_call, symbols_call, List.flatMap_map,
        List.map_append, List.map_flatMap, ihf]
      exact congrArg _ (List.flatMap_congr ih)
  | _ => simp_all [mapNames]

theorem trailAll_mapNames {es : List Expr} (ih : ∀ e ∈ es, (e.mapNames μ).trail = e.trail.map μ) :
    trailAll (mapNamesAll μ es) = (trailAll es).map μ := by
  induction es with
  | nil => rfl
  | cons e es ihes =>
      rw [mapNamesAll, trailAll, trailAll, ih e (by simp),
        ihes fun a ha => ih a (List.mem_cons_of_mem _ ha), List.map_append]

theorem trail_mapNames (e : Expr) : (e.mapNames μ).trail = e.trail.map μ := by
  induction e with
  | list es ih => exact trailAll_mapNames ih
  | call f es ihf ih => rw [mapNames, trail, trail, ihf, trailAll_mapNames ih, List.map_append]
  | _ => simp_all [mapNames, trail]

/-- The renamer meets nothing but the names of the expression. -/
theorem mem_of_mem_trail {e : Expr} {z : String} (h : z ∈ e.trail) :
    z ∈ e.binders ∨ z ∈ e.symbols := by
  induction e with
  | list es ih =>
      rw [trail, mem_trailAll] at h
      simp only [binders_list, symbols_list, List.mem_flatMap]
      grind
  | call f es ihf ih =>
      rw [trail, List.mem_append, mem_trailAll] at h
      simp only [binders_call, symbols_call, List.mem_append, List.mem_flatMap]
      grind
  | _ => simp_all [trail] <;> grind

/-! ### Two renamers in step -/

/-- What two renamers are told, of which one meets `μ x` where the other meets `x`. -/
structure Scope.Mirrors (μ : String → String) (names : List String) (scope scope' : Scope) :
    Prop where
  injective : ∀ x ∈ names, ∀ y ∈ names, μ x = μ y → x = y
  bound_iff : ∀ x ∈ names, (μ x ∈ scope'.bound ↔ x ∈ scope.bound)
  nameOf_eq : ∀ x ∈ names, x ∉ scope.bound → scope'.dict.nameOf (μ x) = scope.dict.nameOf x
  reserved_eq : scope'.reserved = scope.reserved

/-- Two renamers that have given the same names so far. -/
structure Renaming.Mirrors (μ : String → String) (names : List String) (r r' : Renaming) :
    Prop where
  next_eq : r'.next = r.next
  lookup_eq : ∀ x ∈ names, r'.given.lookup (μ x) = r.given.lookup x

section Mirrors

variable {names : List String} {scope scope' : Scope} {r r' : Renaming}

theorem rename_mirrors (hs : Scope.Mirrors μ names scope scope') (hr : r.Mirrors μ names r')
    {x : String} (hx : x ∈ names) :
    (scope'.rename (μ x) r').1 = (scope.rename x r).1 ∧
      Renaming.Mirrors μ names (scope.rename x r).2 (scope'.rename (μ x) r').2 := by
  unfold Scope.rename
  by_cases hb : x ∈ scope.bound
  · rw [if_pos hb, if_pos ((hs.bound_iff x hx).mpr hb), hr.lookup_eq x hx]
    cases r.given.lookup x with
    | some y => exact ⟨rfl, hr⟩
    | none =>
        simp only [hs.reserved_eq, hr.next_eq]
        refine ⟨trivial, rfl, fun z hz => ?_⟩
        by_cases hzx : z = x
        · rw [hzx, lookup_cons_self, lookup_cons_self]
        · have hμ : μ z ≠ μ x := fun he => hzx (hs.injective z hz x hx he)
          rw [lookup_cons_of_ne hμ, lookup_cons_of_ne hzx, hr.lookup_eq z hz]
  · rw [if_neg hb, if_neg (mt (hs.bound_iff x hx).mp hb)]
    exact ⟨hs.nameOf_eq x hx hb, hr⟩

theorem after_mirrors (hs : Scope.Mirrors μ names scope scope') {xs : List String}
    (hxs : ∀ x ∈ xs, x ∈ names) (hr : r.Mirrors μ names r') :
    Renaming.Mirrors μ names (scope.after xs r) (scope'.after (xs.map μ) r') := by
  induction xs generalizing r r' with
  | nil => exact hr
  | cons x xs ih =>
      rw [List.map_cons, after_cons, after_cons]
      refine ih (fun z hz => hxs z (List.mem_cons_of_mem _ hz)) ?_
      exact (rename_mirrors hs hr (hxs x List.mem_cons_self)).2

end Mirrors

/-- The two renamers of an expression and of what a map makes of it. -/
theorem scope_mirrors (dict : Dictionary) {e : Expr}
    (hinj : ∀ x ∈ e.trail, ∀ y ∈ e.trail, μ x = μ y → x = y)
    (hfix : ∀ x ∈ e.trail, x ∉ e.binders → μ x = x) :
    Scope.Mirrors μ e.trail (Scope.of dict e) (Scope.of dict (e.mapNames μ)) := by
  have hbound : ∀ x ∈ e.trail, (μ x ∈ (e.mapNames μ).binders ↔ x ∈ e.binders) := by
    intro x hx
    rw [binders_mapNames]
    refine ⟨fun hmem => ?_, List.mem_map_of_mem⟩
    obtain ⟨y, hy, heq⟩ := List.mem_map.mp hmem
    exact hinj y (mem_trail (Or.inl hy)) x hx heq ▸ hy
  refine ⟨hinj, hbound, fun x hx hb => ?_, ?_⟩
  · rw [hfix x hx hb]
    rfl
  · have hsymbols : ∀ x ∈ e.symbols, x ∈ e.trail := fun x hx => mem_trail (Or.inr hx)
    show (((e.mapNames μ).symbols.filter fun x => !(e.mapNames μ).binders.contains x).map
      dict.nameOf) = (e.symbols.filter fun x => !e.binders.contains x).map dict.nameOf
    rw [symbols_mapNames, List.filter_map, List.map_map]
    have hfilter : (e.symbols.filter ((fun x => !(e.mapNames μ).binders.contains x) ∘ μ)) =
        e.symbols.filter fun x => !e.binders.contains x := by
      refine List.filter_congr fun x hx => ?_
      simp [hbound x (hsymbols x hx)]
    rw [hfilter]
    refine List.map_congr_left fun x hx => ?_
    obtain ⟨hx, hb⟩ := List.mem_filter.mp hx
    exact congrArg dict.nameOf (hfix x (hsymbols x hx) (by simpa using hb))

/-- **Renaming does not see a map of names** that keeps names apart and leaves references alone. -/
theorem rename_mapNames (dict : Dictionary) {e : Expr}
    (hinj : ∀ x ∈ e.trail, ∀ y ∈ e.trail, μ x = μ y → x = y)
    (hfix : ∀ x ∈ e.trail, x ∉ e.binders → μ x = x) :
    (e.mapNames μ).rename dict = e.rename dict := by
  have hscope := scope_mirrors dict hinj hfix
  have hstart : Renaming.Mirrors μ e.trail {} {} := ⟨rfl, fun _ _ => rfl⟩
  have hlast := after_mirrors hscope (fun _ hx => hx) hstart
  rw [rename_eq_naming, rename_eq_naming, mapNames_mapNames, trail_mapNames]
  exact mapNames_congr fun x hx => (rename_mirrors hscope hlast (mem_trail hx)).1

/-- **The readable form does not depend on the names of binders**: alpha equivalent expressions,
both hygienic, are renamed to the same expression. -/
theorem rename_eq_of_alphaEq (dict : Dictionary) {e e' : Expr} (h : AlphaEq e e')
    (he : e.Hygienic) (he' : e'.Hygienic) : e.rename dict = e'.rename dict := by
  obtain ⟨μ, rfl, hfix, hinj⟩ := h.exists_mapNames he he'
  have hnames : ∀ x ∈ e.trail, x ∈ e.binders ∨ x ∈ e.free := fun x hx =>
    (mem_of_mem_trail hx).elim Or.inl fun hsym => (mem_free_or_binders hsym).symm
  refine (rename_mapNames dict (fun x hx y hy => hinj x (hnames x hx) y (hnames y hy)) ?_).symm
  intro x hx hb
  exact hfix x ((hnames x hx).resolve_left hb)

/-- `fun(a, l) -> match l { [] => f, h::t => let v = h in a(v, t, f) }` and the same with other
names for its binders, among them two that the renamer may hand out.  The reference `f` is called
`_x1`, so that one is passed over. -/
theorem rename_eq_of_alphaEq_taken :
    let e : Expr := func "a" ["l"] (matchList (sym "l") (sym "f") "h" "t"
      (letIn "v" (sym "h") (call (sym "a") [sym "v", sym "t", sym "f"])))
    let e' : Expr := func "_x1" ["_x0"] (matchList (sym "_x0") (sym "f") "v" "a"
      (letIn "t" (sym "v") (call (sym "_x1") [sym "t", sym "a", sym "f"])))
    let dict : Dictionary := ⟨[⟨"f", "_x1", none⟩]⟩
    AlphaEq e e' ∧ e.Hygienic ∧ e'.Hygienic ∧
      e.rename dict = func "_x0" ["_x2"] (matchList (sym "_x2") (sym "_x1") "_x3" "_x4"
        (letIn "_x5" (sym "_x3") (call (sym "_x0") [sym "_x5", sym "_x4", sym "_x1"]))) ∧
      e.rename dict = e'.rename dict := by
  intro e e' dict
  have h : AlphaEq e e' := by rfl
  have he : e.Hygienic := ⟨by decide, by decide⟩
  have he' : e'.Hygienic := ⟨by decide, by decide⟩
  exact ⟨h, he, he', eq_of_equal _ (by decide +kernel), rename_eq_of_alphaEq dict h he he'⟩

end Decombinator.Expr
