/-
Renaming is one map of names, and it keeps apart what was apart.

The renamer hands out names as it meets them and threads what it gave through the whole
expression.  What comes out is nevertheless the expression with each name replaced by what
one map says, the one that the renamer ends with: a name that was given stays given, and
every name of the expression is settled by the end.  Bound names are given different
numbers, and none of the names that references end up with.
-/
import Decombinator.Expr.Renaming
import Decombinator.Proofs.Expr.Names
import Decombinator.Proofs.Fresh

namespace Decombinator.Expr

/-! ### Mapping all names -/

mutual

/-- Every name, bound or not, replaced by another. -/
def mapNames (ν : String → String) : Expr → Expr
  | int n => int n
  | sym x => sym (ν x)
  | bool b => bool b
  | prim p => prim p
  | list es => list (mapNamesAll ν es)
  | neg a => neg (mapNames ν a)
  | not a => not (mapNames ν a)
  | isNil a => isNil (mapNames ν a)
  | binary op a b => binary op (mapNames ν a) (mapNames ν b)
  | cond a b c => cond (mapNames ν a) (mapNames ν b) (mapNames ν c)
  | matchList v e h t b => matchList (mapNames ν v) (mapNames ν e) (ν h) (ν t) (mapNames ν b)
  | letCons h t v b => letCons (ν h) (ν t) (mapNames ν v) (mapNames ν b)
  | letIn x v b => letIn (ν x) (mapNames ν v) (mapNames ν b)
  | call f es => call (mapNames ν f) (mapNamesAll ν es)
  | func p ps b => func (ν p) (ps.map ν) (mapNames ν b)

def mapNamesAll (ν : String → String) : List Expr → List Expr
  | [] => []
  | e :: es => mapNames ν e :: mapNamesAll ν es

end

theorem mapNamesAll_eq_map (ν : String → String) (es : List Expr) :
    mapNamesAll ν es = es.map (mapNames ν) := by
  induction es with
  | nil => rfl
  | cons e es ih => rw [mapNamesAll, ih, List.map_cons]

theorem binders_mapNames (ν : String → String) (e : Expr) :
    (e.mapNames ν).binders = e.binders.map ν := by
  induction e with
  | list es ih =>
      rw [mapNames, mapNamesAll_eq_map, binders_list, binders_list, List.flatMap_map,
        List.map_flatMap]
      exact List.flatMap_congr ih
  | call f es ihf ih =>
      rw [mapNames, mapNamesAll_eq_map, binders_call, binders_call, List.flatMap_map,
        List.map_append, List.map_flatMap, ihf]
      exact congrArg _ (List.flatMap_congr ih)
  | _ => simp_all [mapNames]

/-- A map that gives no binder of an expression the name of another symbol in it. -/
def Separates (ν : String → String) (e : Expr) : Prop :=
  ∀ x ∈ e.binders, ∀ y ∈ e.symbols, ν y = ν x → y = x

variable {ν : String → String}

theorem Separates.part {e a : Expr} (h : Separates ν e) (ha : a ∈ e.parts) : Separates ν a :=
  fun x hx y hy => h x (mem_binders_of_part ha hx) y (mem_symbols_of_part ha hy)

theorem Separates.bound {e b : Expr} (h : Separates ν e) (hb : b ∈ e.parts) :
    ∀ x ∈ e.ownBinders, ∀ y ∈ b.free, ν y = ν x → y = x := by
  intro x hx y hy
  exact h x (mem_binders_of_own hx) y (mem_symbols_of_part hb (mem_symbols_of_mem_free hy))

/-- Binding and then mapping leaves the names that mapping and then binding leaves. -/
theorem exists_unbound_iff {fs xs : List String} {z : String}
    (h : ∀ x ∈ xs, ∀ y ∈ fs, ν y = ν x → y = x) :
    (∃ y, (y ∈ fs ∧ y ∉ xs) ∧ ν y = z) ↔ (∃ y ∈ fs, ν y = z) ∧ z ∉ xs.map ν := by
  constructor
  · rintro ⟨y, ⟨hy, hyx⟩, rfl⟩
    refine ⟨⟨y, hy, rfl⟩, fun hmem => ?_⟩
    obtain ⟨x, hx, hxy⟩ := List.mem_map.mp hmem
    exact hyx (h x hx y hy hxy.symm ▸ hx)
  · rintro ⟨⟨y, hy, rfl⟩, hz⟩
    exact ⟨y, ⟨hy, fun hyx => hz (List.mem_map_of_mem hyx)⟩, rfl⟩

theorem Separates.unbound_iff {e b : Expr} (h : Separates ν e) (hb : b ∈ e.parts) (z : String) :
    (∃ y, (y ∈ b.free ∧ y ∉ e.ownBinders) ∧ ν y = z) ↔
      (∃ y ∈ b.free, ν y = z) ∧ z ∉ e.ownBinders.map ν :=
  exists_unbound_iff (h.bound hb)

theorem mem_free_mapNames {e : Expr} (h : Separates ν e) {z : String} :
    z ∈ (e.mapNames ν).free ↔ ∃ y ∈ e.free, ν y = z := by
  induction e with
  | int n => simp [mapNames, free]
  | sym x => simp [mapNames, free, eq_comm]
  | bool b => simp [mapNames, free]
  | prim p => simp [mapNames, free]
  | list es ih =>
      have hes : ∀ e ∈ es, (z ∈ (e.mapNames ν).free ↔ ∃ y ∈ e.free, ν y = z) := fun e he =>
        ih e he (h.part he)
      simp only [mapNames, mapNamesAll_eq_map, free, mem_freeAll, List.mem_map]
      grind
  | neg a ih => exact ih h
  | not a ih => exact ih h
  | isNil a ih => exact ih h
  | binary op a b iha ihb =>
      have ha := iha (h.part (by simp [parts]))
      have hb := ihb (h.part (by simp [parts]))
      simp only [mapNames, free, List.mem_append, ha, hb, or_and_right, exists_or]
  | cond a b c iha ihb ihc =>
      have ha := iha (h.part (by simp [parts]))
      have hb := ihb (h.part (by simp [parts]))
      have hc := ihc (h.part (by simp [parts]))
      simp only [mapNames, free, List.mem_append, ha, hb, hc, or_and_right, exists_or]
  | matchList v e p q b ihv ihe ihb =>
      have hv := ihv (h.part (by simp [parts]))
      have he := ihe (h.part (by simp [parts]))
      have hb := ihb (h.part (by simp [parts]))
      have hpq := h.unbound_iff (b := b) (by simp [parts]) z
      simp only [ownBinders, List.mem_cons, List.not_mem_nil, or_false, not_or, List.map_cons,
        List.map_nil] at hpq
      simp only [mapNames, free, List.mem_append, List.mem_filter, decide_eq_true_eq, hv, he, hb,
        ← hpq, or_and_right, exists_or]
  | letCons p q v b ihv ihb =>
      have hv := ihv (h.part (by simp [parts]))
      have hb := ihb (h.part (by simp [parts]))
      have hpq := h.unbound_iff (b := b) (by simp [parts]) z
      simp only [ownBinders, List.mem_cons, List.not_mem_nil, or_false, not_or, List.map_cons,
        List.map_nil] at hpq
      simp only [mapNames, free, List.mem_append, List.mem_filter, decide_eq_true_eq, hv, hb,
        ← hpq, or_and_right, exists_or]
  | letIn x v b ihv ihb =>
      have hv := ihv (h.part (by simp [parts]))
      have hb := ihb (h.part (by simp [parts]))
      have hx := h.unbound_iff (b := b) (by simp [parts]) z
      simp only [ownBinders, List.mem_cons, List.not_mem_nil, or_false, List.map_cons,
        List.map_nil] at hx
      simp only [mapNames, free, List.mem_append, List.mem_filter, decide_eq_true_eq, hv, hb, ne_eq,
        ← hx, or_and_right, exists_or]
  | call f es ihf ih =>
      have hf := ihf (h.part (by simp [parts]))
      have hes : ∀ e ∈ es, (z ∈ (e.mapNames ν).free ↔ ∃ y ∈ e.free, ν y = z) := fun e he =>
        ih e he (h.part (List.mem_cons_of_mem _ he))
      simp only [mapNames, mapNamesAll_eq_map, free, List.mem_append, mem_freeAll, List.mem_map, hf]
      grind
  | func p ps b ih =>
      have hb := ih (h.part (by simp [parts]))
      have hps := h.unbound_iff (b := b) (by simp [parts]) z
      simp only [ownBinders, List.map_cons] at hps
      simp only [mapNames, free, List.mem_filter, decide_eq_true_eq, hb, hps]

/-! ### The names given so far -/

/-- What was given is still given. -/
def Renaming.Grows (r r' : Renaming) : Prop :=
  ∀ x y, r.given.lookup x = some y → r'.given.lookup x = some y

theorem Renaming.Grows.trans {r r' r'' : Renaming} (h : r.Grows r') (h' : r'.Grows r'') :
    r.Grows r'' :=
  fun x y hx => h' x y (h x y hx)

/-- The renaming after all of some names. -/
def Scope.after (scope : Scope) (xs : List String) (r : Renaming) : Renaming :=
  (scope.renameAll xs r).2

/-- The new name of `x`, as a map of names. -/
def Scope.naming (scope : Scope) (r : Renaming) (x : String) : String :=
  (scope.rename x r).1

variable (scope : Scope)

theorem lookup_cons_self (x y : String) (given : List (String × String)) :
    List.lookup x ((x, y) :: given) = some y := by
  simp

theorem lookup_cons_of_ne {x z : String} (h : z ≠ x) (y : String) (given : List (String × String)) :
    List.lookup z ((x, y) :: given) = List.lookup z given := by
  have hne : (z == x) = false := by simpa using h
  rw [List.lookup_cons, hne]

/-- All that renaming one name can do. -/
theorem rename_cases (x : String) (r : Renaming) :
    (x ∉ scope.bound ∧ scope.rename x r = (scope.dict.nameOf x, r)) ∨
    (∃ y, x ∈ scope.bound ∧ r.given.lookup x = some y ∧ scope.rename x r = (y, r)) ∨
    (∃ k, x ∈ scope.bound ∧ r.given.lookup x = none ∧ r.next ≤ k ∧
      Fresh.numbered "_x" k ∉ scope.reserved ∧
      scope.rename x r = (Fresh.numbered "_x" k,
        ⟨(x, Fresh.numbered "_x" k) :: r.given, k + 1⟩)) := by
  rw [Scope.rename]
  by_cases hx : x ∈ scope.bound
  · rw [if_pos hx]
    cases hl : r.given.lookup x with
    | some y => exact Or.inr (Or.inl ⟨y, hx, rfl, rfl⟩)
    | none =>
        exact Or.inr (Or.inr ⟨Fresh.firstFree "_x" scope.reserved r.next, hx, rfl,
          Fresh.le_firstFree _ _ _, Fresh.firstFree_notMem _ _ _, rfl⟩)
  · rw [if_neg hx]
    exact Or.inl ⟨hx, rfl⟩

theorem rename_grows (x : String) (r : Renaming) : r.Grows (scope.rename x r).2 := by
  rcases rename_cases scope x r with ⟨-, h⟩ | ⟨y, -, -, h⟩ | ⟨k, -, hnone, -, -, h⟩
  · rw [h]
    exact fun _ _ hz => hz
  · rw [h]
    exact fun _ _ hz => hz
  · rw [h]
    intro z w hz
    have hzx : z ≠ x := by
      rintro rfl
      rw [hnone] at hz
      cases hz
    rw [lookup_cons_of_ne hzx]
    exact hz

/-- The name that was handed out stays the name. -/
theorem naming_of_grows {x : String} {r r' : Renaming} (h : (scope.rename x r).2.Grows r') :
    scope.naming r' x = (scope.rename x r).1 := by
  have hgiven : ∀ {y : String}, x ∈ scope.bound → r'.given.lookup x = some y →
      scope.naming r' x = y := by
    intro y hx hy
    rw [Scope.naming, Scope.rename, if_pos hx, hy]
  rcases rename_cases scope x r with ⟨hx, he⟩ | ⟨y, hx, hy, he⟩ | ⟨k, hx, -, -, -, he⟩
  · rw [he, Scope.naming, Scope.rename, if_neg hx]
  · rw [he] at h ⊢
    exact hgiven hx (h x y hy)
  · rw [he] at h ⊢
    exact hgiven hx (h x _ (lookup_cons_self _ _ _))

theorem renameAll_snd (xs : List String) (r : Renaming) :
    (scope.renameAll xs r).2 = scope.after xs r :=
  rfl

theorem after_cons (x : String) (xs : List String) (r : Renaming) :
    scope.after (x :: xs) r = scope.after xs (scope.rename x r).2 :=
  rfl

theorem after_append (xs ys : List String) (r : Renaming) :
    scope.after (xs ++ ys) r = scope.after ys (scope.after xs r) := by
  induction xs generalizing r with
  | nil => rfl
  | cons x xs ih => rw [List.cons_append, after_cons, after_cons, ih]

theorem after_grows (xs : List String) (r : Renaming) : r.Grows (scope.after xs r) := by
  induction xs generalizing r with
  | nil => exact fun _ _ h => h
  | cons x xs ih => exact (rename_grows scope x r).trans (ih _)

theorem renameAll_eq_map {xs : List String} {r r' : Renaming} (h : (scope.after xs r).Grows r') :
    (scope.renameAll xs r).1 = xs.map (scope.naming r') := by
  induction xs generalizing r with
  | nil => rfl
  | cons x xs ih =>
      rw [Scope.renameAll, List.map_cons, ih h,
        naming_of_grows scope ((after_grows scope xs _).trans h)]

/-! ### Renaming an expression -/

mutual

/-- The names of an expression in the order in which they are renamed. -/
def trail : Expr → List String
  | int _ | bool _ | prim _ => []
  | sym x => [x]
  | list es => trailAll es
  | neg a | not a | isNil a => a.trail
  | binary _ a b => a.trail ++ b.trail
  | cond a b c => a.trail ++ b.trail ++ c.trail
  | matchList v e h t b => v.trail ++ e.trail ++ h :: t :: b.trail
  | letCons h t v b => h :: t :: (v.trail ++ b.trail)
  | letIn x v b => x :: (v.trail ++ b.trail)
  | call f es => f.trail ++ trailAll es
  | func p ps b => p :: (ps ++ b.trail)

def trailAll : List Expr → List String
  | [] => []
  | e :: es => e.trail ++ trailAll es

end

theorem mem_trailAll {es : List Expr} {z : String} : z ∈ trailAll es ↔ ∃ e ∈ es, z ∈ e.trail := by
  induction es with
  | nil => simp [trailAll]
  | cons e es ih => simp [trailAll, ih]

theorem mem_trail {e : Expr} {z : String} (h : z ∈ e.binders ∨ z ∈ e.symbols) : z ∈ e.trail := by
  induction e with
  | list es ih =>
      simp only [binders_list, symbols_list, List.mem_flatMap] at h
      rw [trail, mem_trailAll]
      grind
  | call f es ihf ih =>
      simp only [binders_call, symbols_call, List.mem_append, List.mem_flatMap] at h
      rw [trail, List.mem_append, mem_trailAll]
      grind
  | _ => simp_all [trail] <;> grind

/-- What renaming an expression does: it renames the names of the trail in turn, and the
names that it leaves behind are those that any later renaming gives. -/
def Follows (e : Expr) (r : Renaming) : Prop :=
  (renameIn scope e r).2 = scope.after e.trail r ∧
    ∀ r', (scope.after e.trail r).Grows r' → (renameIn scope e r).1 = e.mapNames (scope.naming r')

theorem renameAllIn_follows {es : List Expr} (ih : ∀ e ∈ es, ∀ r, Follows scope e r) :
    ∀ r, (renameAllIn scope es r).2 = scope.after (trailAll es) r ∧
      ∀ r', (scope.after (trailAll es) r).Grows r' →
        (renameAllIn scope es r).1 = mapNamesAll (scope.naming r') es := by
  induction es with
  | nil => exact fun r => ⟨rfl, fun _ _ => rfl⟩
  | cons e es ihes =>
      intro r
      obtain ⟨he, he'⟩ := ih e (by simp) r
      obtain ⟨hes, hes'⟩ := ihes (fun x hx => ih x (List.mem_cons_of_mem _ hx)) (scope.after e.trail r)
      simp only [renameAllIn, trailAll, after_append, he, hes, mapNamesAll]
      refine ⟨trivial, fun r' hr => ?_⟩
      rw [he' r' ((after_grows scope _ _).trans hr), hes' r' hr]

theorem renameIn_follows (e : Expr) : ∀ r, Follows scope e r := by
  induction e with
  | int n => exact fun r => ⟨rfl, fun _ _ => rfl⟩
  | sym x => exact fun r => ⟨rfl, fun r' hr => congrArg sym (naming_of_grows scope hr).symm⟩
  | bool b => exact fun r => ⟨rfl, fun _ _ => rfl⟩
  | prim p => exact fun r => ⟨rfl, fun _ _ => rfl⟩
  | list es ih =>
      intro r
      obtain ⟨hes, hes'⟩ := renameAllIn_follows scope ih r
      exact ⟨hes, fun r' hr => congrArg list (hes' r' hr)⟩
  | neg a ih => exact fun r => ⟨(ih r).1, fun r' hr => congrArg neg ((ih r).2 r' hr)⟩
  | not a ih => exact fun r => ⟨(ih r).1, fun r' hr => congrArg not ((ih r).2 r' hr)⟩
  | isNil a ih => exact fun r => ⟨(ih r).1, fun r' hr => congrArg isNil ((ih r).2 r' hr)⟩
  | binary op a b iha ihb =>
      intro r
      obtain ⟨ha, ha'⟩ := iha r
      obtain ⟨hb, hb'⟩ := ihb (scope.after a.trail r)
      simp only [Follows, renameIn, trail, after_append, ha, hb, mapNames]
      refine ⟨trivial, fun r' hr => ?_⟩
      rw [ha' r' ((after_grows scope _ _).trans hr), hb' r' hr]
  | cond a b c iha ihb ihc =>
      intro r
      obtain ⟨ha, ha'⟩ := iha r
      obtain ⟨hb, hb'⟩ := ihb (scope.after a.trail r)
      obtain ⟨hc, hc'⟩ := ihc (scope.after b.trail (scope.after a.trail r))
      simp only [Follows, renameIn, trail, after_append, ha, hb, hc, mapNames]
      refine ⟨trivial, fun r' hr => ?_⟩
      have hr₂ := (after_grows scope _ _).trans hr
      rw [ha' r' ((after_grows scope _ _).trans hr₂), hb' r' hr₂, hc' r' hr]
  | matchList v e h t b ihv ihe ihb =>
      intro r
      obtain ⟨hv, hv'⟩ := ihv r
      obtain ⟨he, he'⟩ := ihe (scope.after v.trail r)
      obtain ⟨hb, hb'⟩ := ihb
        (scope.rename t (scope.rename h (scope.after e.trail (scope.after v.trail r))).2).2
      simp only [Follows, renameIn, trail, after_append, after_cons, hv, he, hb, mapNames]
      refine ⟨trivial, fun r' hr => ?_⟩
      have hrt := (after_grows scope _ _).trans hr
      have hrh := (rename_grows scope _ _).trans hrt
      have hre := (rename_grows scope _ _).trans hrh
      rw [hv' r' ((after_grows scope _ _).trans hre), he' r' hre, naming_of_grows scope hrh,
        naming_of_grows scope hrt, hb' r' hr]
  | letCons h t v b ihv ihb =>
      intro r
      obtain ⟨hv, hv'⟩ := ihv (scope.rename t (scope.rename h r).2).2
      obtain ⟨hb, hb'⟩ := ihb (scope.after v.trail (scope.rename t (scope.rename h r).2).2)
      simp only [Follows, renameIn, trail, after_append, after_cons, hv, hb, mapNames]
      refine ⟨trivial, fun r' hr => ?_⟩
      have hrv := (after_grows scope _ _).trans hr
      have hrt := (after_grows scope _ _).trans hrv
      have hrh := (rename_grows scope _ _).trans hrt
      rw [naming_of_grows scope hrh, naming_of_grows scope hrt, hv' r' hrv, hb' r' hr]
  | letIn x v b ihv ihb =>
      intro r
      obtain ⟨hv, hv'⟩ := ihv (scope.rename x r).2
      obtain ⟨hb, hb'⟩ := ihb (scope.after v.trail (scope.rename x r).2)
      simp only [Follows, renameIn, trail, after_append, after_cons, hv, hb, mapNames]
      refine ⟨trivial, fun r' hr => ?_⟩
      have hr₂ := (after_grows scope _ _).trans hr
      have hr₁ := (after_grows scope _ _).trans hr₂
      rw [naming_of_grows scope hr₁, hv' r' hr₂, hb' r' hr]
  | call f es ihf ih =>
      intro r
      obtain ⟨hf, hf'⟩ := ihf r
      obtain ⟨hes, hes'⟩ := renameAllIn_follows scope ih (scope.after f.trail r)
      simp only [Follows, renameIn, trail, after_append, hf, hes, mapNames]
      refine ⟨trivial, fun r' hr => ?_⟩
      rw [hf' r' ((after_grows scope _ _).trans hr), hes' r' hr]
  | func p ps b ih =>
      intro r
      obtain ⟨hb, hb'⟩ := ih (scope.after ps (scope.rename p r).2)
      simp only [Follows, renameIn, trail, after_append, after_cons, renameAll_snd, hb, mapNames]
      refine ⟨trivial, fun r' hr => ?_⟩
      have hrps := (after_grows scope _ _).trans hr
      have hrp := (after_grows scope _ _).trans hrps
      rw [naming_of_grows scope hrp, renameAll_eq_map scope hrps, hb' r' hr]

/-! ### The names that are given are fresh -/

/-- Names were given by number, none twice and none that is reserved. -/
structure Renaming.Valid (reserved : List String) (r : Renaming) : Prop where
  fresh : ∀ x y, r.given.lookup x = some y →
    y ∉ reserved ∧ ∃ k, k < r.next ∧ y = Fresh.numbered "_x" k
  injective : ∀ x x' y, r.given.lookup x = some y → r.given.lookup x' = some y → x = x'

theorem rename_valid {r : Renaming} (h : r.Valid scope.reserved) (x : String) :
    (scope.rename x r).2.Valid scope.reserved := by
  rcases rename_cases scope x r with ⟨-, he⟩ | ⟨y, -, -, he⟩ | ⟨k, -, -, hk, hfresh, he⟩
  · rw [he]
    exact h
  · rw [he]
    exact h
  · rw [he]
    -- The new number is above all that were given before.
    have hnew : ∀ z, r.given.lookup z ≠ some (Fresh.numbered "_x" k) := by
      intro z hz
      obtain ⟨-, j, hj, heq⟩ := h.fresh z _ hz
      exact Fresh.numbered_ne_of_lt "_x" (show j < k by omega) heq.symm
    refine ⟨fun z w hz => ?_, fun z z' w hz hz' => ?_⟩
    · by_cases hzx : z = x
      · subst hzx
        rw [lookup_cons_self] at hz
        obtain rfl := Option.some.inj hz
        exact ⟨hfresh, k, Nat.lt_succ_self k, rfl⟩
      · rw [lookup_cons_of_ne hzx] at hz
        obtain ⟨hres, j, hj, heq⟩ := h.fresh z w hz
        exact ⟨hres, j, by show j < k + 1; omega, heq⟩
    · by_cases hzx : z = x
      · subst hzx
        rw [lookup_cons_self] at hz
        obtain rfl := Option.some.inj hz
        by_contra hne
        rw [lookup_cons_of_ne (Ne.symm hne)] at hz'
        exact hnew z' hz'
      · rw [lookup_cons_of_ne hzx] at hz
        by_cases hzx' : z' = x
        · subst hzx'
          rw [lookup_cons_self] at hz'
          obtain rfl := Option.some.inj hz'
          exact absurd hz (hnew z)
        · rw [lookup_cons_of_ne hzx'] at hz'
          exact h.injective z z' w hz hz'

theorem after_valid {r : Renaming} (h : r.Valid scope.reserved) (xs : List String) :
    (scope.after xs r).Valid scope.reserved := by
  induction xs generalizing r with
  | nil => exact h
  | cons x xs ih => exact ih (rename_valid scope h x)

/-- Every bound name that was met has been given a name. -/
theorem after_given {x : String} {xs : List String} (hx : x ∈ xs) (hbound : x ∈ scope.bound)
    (r : Renaming) : (scope.after xs r).given.lookup x = some (scope.naming (scope.after xs r) x) := by
  have hmet : ∃ y, (scope.after xs r).given.lookup x = some y := by
    induction xs generalizing r with
    | nil => cases hx
    | cons z xs ih =>
        rw [after_cons]
        rcases List.mem_cons.mp hx with rfl | hx
        · rcases rename_cases scope x r with ⟨hno, -⟩ | ⟨y, -, hy, he⟩ | ⟨k, -, -, -, -, he⟩
          · exact absurd hbound hno
          · rw [he]
            exact ⟨y, after_grows scope xs r x y hy⟩
          · rw [he]
            exact ⟨_, after_grows scope xs _ x _ (lookup_cons_self _ _ _)⟩
        · exact ih hx _
  obtain ⟨y, hy⟩ := hmet
  rw [hy, Scope.naming, Scope.rename, if_pos hbound, hy]

/-! ### The whole renaming -/

/-- A renamed expression is the expression with each name replaced by what the renamer ends
with. -/
theorem rename_eq_naming (dict : Dictionary) (e : Expr) :
    e.rename dict =
      e.mapNames ((Scope.of dict e).naming ((Scope.of dict e).after e.trail {})) :=
  (renameIn_follows (Scope.of dict e) e {}).2 _ fun _ _ h => h

/-- **Renaming is a map of names** that keeps each binder apart from all other names, and
that gives references their readable names. -/
theorem rename_eq_mapNames (dict : Dictionary) (e : Expr) :
    ∃ ν : String → String, e.rename dict = e.mapNames ν ∧
      (∀ x ∈ e.binders, ∀ y, y ∈ e.binders ∨ y ∈ e.symbols → ν y = ν x → y = x) ∧
      ∀ x, x ∉ e.binders → ν x = dict.nameOf x := by
  let scope := Scope.of dict e
  let last := scope.after e.trail {}
  have hvalid : last.Valid scope.reserved :=
    after_valid scope ⟨fun _ _ h => by simp at h, fun _ _ _ h => by simp at h⟩ e.trail
  have hunbound : ∀ x, x ∉ e.binders → scope.naming last x = dict.nameOf x := by
    intro x hx
    have hx' : x ∉ scope.bound := hx
    rw [Scope.naming, Scope.rename, if_neg hx']
    rfl
  refine ⟨scope.naming last, rename_eq_naming dict e, ?_, hunbound⟩
  intro x hx y hy heq
  have hxgiven := after_given scope (mem_trail (Or.inl hx)) (show x ∈ scope.bound from hx) {}
  by_cases hyb : y ∈ e.binders
  · have hygiven := after_given scope (mem_trail (Or.inl hyb)) (show y ∈ scope.bound from hyb) {}
    exact hvalid.injective y x _ (heq ▸ hygiven) hxgiven
  · -- A reference is called by a reserved name, and no binder is.
    have hysym : y ∈ e.symbols := hy.resolve_left hyb
    have hreserved : dict.nameOf y ∈ scope.reserved :=
      List.mem_map_of_mem (List.mem_filter.mpr ⟨hysym, by simpa using hyb⟩)
    have hfresh := (hvalid.fresh x _ hxgiven).1
    rw [← hunbound y hyb, heq] at hreserved
    exact absurd hreserved hfresh

/-- **A renamed expression is hygienic**, if the expression was. -/
theorem rename_hygienic (dict : Dictionary) {e : Expr} (h : e.Hygienic) :
    (e.rename dict).Hygienic := by
  obtain ⟨ν, he, hsep, -⟩ := rename_eq_mapNames dict e
  rw [he, Hygienic, binders_mapNames]
  refine ⟨List.Nodup.map_on (fun y hy x hx heq => hsep x hx y (Or.inl hy) heq) h.distinct, ?_⟩
  intro z hz hfree
  obtain ⟨x, hx, rfl⟩ := List.mem_map.mp hz
  obtain ⟨y, hy, hyx⟩ := (mem_free_mapNames fun x hx y hy => hsep x hx y (Or.inr hy)).mp hfree
  obtain rfl := hsep x hx y (Or.inr (mem_symbols_of_mem_free hy)) hyx
  exact h.unfree y hx hy

/-- The references of a renamed expression are those of the expression by their readable
names. -/
theorem mem_free_rename (dict : Dictionary) {e : Expr} (h : e.Hygienic) {z : String} :
    z ∈ (e.rename dict).free ↔ ∃ y ∈ e.free, dict.nameOf y = z := by
  obtain ⟨ν, he, hsep, hν⟩ := rename_eq_mapNames dict e
  rw [he, mem_free_mapNames fun x hx y hy => hsep x hx y (Or.inr hy)]
  have hname : ∀ y ∈ e.free, ν y = dict.nameOf y := fun y hy =>
    hν y fun hb => h.unfree y hb hy
  constructor
  · rintro ⟨y, hy, rfl⟩
    exact ⟨y, hy, (hname y hy).symm⟩
  · rintro ⟨y, hy, rfl⟩
    exact ⟨y, hy, hname y hy⟩

end Decombinator.Expr
