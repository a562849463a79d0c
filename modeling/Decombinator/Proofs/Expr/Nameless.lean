/-
Expressions up to the names of their binders.

The nameless form of an expression keeps the names of references only: a symbol that something
binds is replaced by how many binders lie between it and its own.  Two expressions are alpha
equivalent if they have the same nameless form.  Of binders with one name the innermost counts,
and of the parameters of a function the last.

In a nameless form references can be replaced with nothing to take care of.  In an expression, a
binder that would capture the new name of something has to be renamed first, and replacing
references with that care is replacing them in the nameless form.

Renaming an expression for the reader does the same, as long as no name is both bound and free.
The renamer does not look at scopes: it gives one new name to all binders of one name, wherever
they are.  What keeps it from capturing anything is that different names stay different.
-/
import Decombinator.Proofs.Expr.Algebra
import Decombinator.Proofs.Expr.Renaming
import Mathlib.Logic.Function.Basic

namespace Decombinator.Expr

/-! ### Nameless forms -/

/-- What a symbol refers to: a binder, counted from the innermost, or nothing that is bound. -/
inductive Ref
  | bound (depth : Nat)
  | free (x : String)
  deriving DecidableEq

/-- A reference as it is seen from below one more binder. -/
def Ref.up : Ref → Ref
  | bound i => bound (i + 1)
  | free x => free x

theorem Ref.up_injective {r r' : Ref} (h : r.up = r'.up) : r = r' := by
  cases r <;> cases r' <;> simp_all [up]

theorem Ref.up_ne_zero (r : Ref) : r.up ≠ .bound 0 := by
  cases r <;> simp [up]

/-- What a name refers to below the binders `Δ`, the innermost first. -/
def resolve : List String → String → Ref
  | [], x => .free x
  | y :: Δ, x => if x = y then .bound 0 else (resolve Δ x).up

/-- The binders below `Δ` and then `xs` in turn, the innermost first. -/
def inside : List String → List String → List String
  | [], Δ => Δ
  | x :: xs, Δ => inside xs (x :: Δ)

/-- An expression without the names of its binders. -/
inductive Nameless
  | int (n : Int64)
  | ref (r : Ref)
  | bool (b : Bool)
  | prim (p : Prim)
  | list (items : List Nameless)
  | neg (e : Nameless)
  | not (e : Nameless)
  | isNil (e : Nameless)
  | binary (op : BinOp) (l r : Nameless)
  | cond (test yes no : Nameless)
  | matchList (value empty body : Nameless)
  | letCons (value body : Nameless)
  | letIn (value body : Nameless)
  | call (f : Nameless) (args : List Nameless)
  | func (params : Nat) (body : Nameless)

mutual

/-- The nameless form of an expression below the binders `Δ`. -/
def nameless (Δ : List String) : Expr → Nameless
  | int n => .int n
  | sym x => .ref (resolve Δ x)
  | bool b => .bool b
  | prim p => .prim p
  | list es => .list (namelessAll Δ es)
  | neg a => .neg (nameless Δ a)
  | not a => .not (nameless Δ a)
  | isNil a => .isNil (nameless Δ a)
  | binary op a b => .binary op (nameless Δ a) (nameless Δ b)
  | cond a b c => .cond (nameless Δ a) (nameless Δ b) (nameless Δ c)
  | matchList v e h t b =>
    .matchList (nameless Δ v) (nameless Δ e) (nameless (inside [h, t] Δ) b)
  | letCons h t v b => .letCons (nameless Δ v) (nameless (inside [h, t] Δ) b)
  | letIn x v b => .letIn (nameless Δ v) (nameless (inside [x] Δ) b)
  | call f es => .call (nameless Δ f) (namelessAll Δ es)
  | func p ps b => .func (ps.length + 1) (nameless (inside (p :: ps) Δ) b)

def namelessAll (Δ : List String) : List Expr → List Nameless
  | [] => []
  | e :: es => nameless Δ e :: namelessAll Δ es

end

/-- Two expressions that differ in the names of their binders only. -/
def AlphaEq (e e' : Expr) : Prop :=
  e.nameless [] = e'.nameless []

/-! ### Replacing references -/

def Ref.mapFree (τ : String → String) : Ref → Ref
  | bound i => bound i
  | free x => free (τ x)

theorem Ref.mapFree_up (τ : String → String) (r : Ref) : r.up.mapFree τ = (r.mapFree τ).up := by
  cases r <;> rfl

namespace Nameless

mutual

/-- Replaces references. -/
def mapFree (τ : String → String) : Nameless → Nameless
  | int n => int n
  | ref r => ref (r.mapFree τ)
  | bool b => bool b
  | prim p => prim p
  | list es => list (mapFreeAll τ es)
  | neg a => neg (mapFree τ a)
  | not a => not (mapFree τ a)
  | isNil a => isNil (mapFree τ a)
  | binary op a b => binary op (mapFree τ a) (mapFree τ b)
  | cond a b c => cond (mapFree τ a) (mapFree τ b) (mapFree τ c)
  | matchList v e b => matchList (mapFree τ v) (mapFree τ e) (mapFree τ b)
  | letCons v b => letCons (mapFree τ v) (mapFree τ b)
  | letIn v b => letIn (mapFree τ v) (mapFree τ b)
  | call f es => call (mapFree τ f) (mapFreeAll τ es)
  | func n b => func n (mapFree τ b)

def mapFreeAll (τ : String → String) : List Nameless → List Nameless
  | [] => []
  | e :: es => mapFree τ e :: mapFreeAll τ es

end

end Nameless

/-- The name for the binder `x` of a body with the free names `fs`, when symbols are replaced
by `σ`: its own, unless that would capture something. -/
def safeName (σ : String → String) (fs : List String) (x : String) : String :=
  let taken := (fs.filter (· ≠ x)).map σ
  if x ∈ taken then Fresh.numbered "x" (Fresh.firstFree "x" taken 0) else x

/-- The names for several binders in turn, and what replaces the symbols below them. -/
def safeNames (fs : List String) : List String → (String → String) → List String × (String → String)
  | [], σ => ([], σ)
  | x :: xs, σ =>
    let y := safeName σ (fs.filter (· ∉ xs)) x
    let ys := safeNames fs xs (Function.update σ x y)
    (y :: ys.1, ys.2)

mutual

/-- Replaces free symbols, renaming binders where it must. -/
def replaceFree (σ : String → String) : Expr → Expr
  | int n => int n
  | sym x => sym (σ x)
  | bool b => bool b
  | prim p => prim p
  | list es => list (replaceFreeAll σ es)
  | neg a => neg (replaceFree σ a)
  | not a => not (replaceFree σ a)
  | isNil a => isNil (replaceFree σ a)
  | binary op a b => binary op (replaceFree σ a) (replaceFree σ b)
  | cond a b c => cond (replaceFree σ a) (replaceFree σ b) (replaceFree σ c)
  | matchList v e h t b =>
    let h' := safeName σ (b.free.filter (· ≠ t)) h
    let t' := safeName (Function.update σ h h') b.free t
    matchList (replaceFree σ v) (replaceFree σ e) h' t'
      (replaceFree (Function.update (Function.update σ h h') t t') b)
  | letCons h t v b =>
    let h' := safeName σ (b.free.filter (· ≠ t)) h
    let t' := safeName (Function.update σ h h') b.free t
    letCons h' t' (replaceFree σ v)
      (replaceFree (Function.update (Function.update σ h h') t t') b)
  | letIn x v b =>
    let x' := safeName σ b.free x
    letIn x' (replaceFree σ v) (replaceFree (Function.update σ x x') b)
  | call f es => call (replaceFree σ f) (replaceFreeAll σ es)
  | func p ps b =>
    let p' := safeName σ (b.free.filter (· ∉ ps)) p
    let ps' := safeNames b.free ps (Function.update σ p p')
    func p' ps'.1 (replaceFree ps'.2 b)

def replaceFreeAll (σ : String → String) : List Expr → List Expr
  | [] => []
  | e :: es => replaceFree σ e :: replaceFreeAll σ es

end

theorem replaceFreeAll_eq_map (σ : String → String) (es : List Expr) :
    replaceFreeAll σ es = es.map (replaceFree σ) := by
  induction es with
  | nil => rfl
  | cons e es ih => rw [replaceFreeAll, ih, List.map_cons]

theorem safeName_notMem (σ : String → String) (fs : List String) (x : String) :
    safeName σ fs x ∉ (fs.filter (· ≠ x)).map σ := by
  unfold safeName
  by_cases hx : x ∈ (fs.filter (· ≠ x)).map σ
  · simp only [if_pos hx]
    exact Fresh.firstFree_notMem _ _ _
  · simp only [if_neg hx]
    exact hx

theorem length_safeNames (fs xs : List String) (σ : String → String) :
    (safeNames fs xs σ).1.length = xs.length := by
  induction xs generalizing σ with
  | nil => rfl
  | cons x xs ih => rw [safeNames, List.length_cons, ih, List.length_cons]

/-! ### Names that replace names -/

theorem resolve_cons_self (Δ : List String) (x : String) : resolve (x :: Δ) x = .bound 0 :=
  if_pos rfl

theorem resolve_cons_ne {x y : String} (h : x ≠ y) (Δ : List String) :
    resolve (y :: Δ) x = (resolve Δ x).up :=
  if_neg h

/-- Below the binders `Δ'`, what `σ` makes of the names `fs` refers to what they refer to below
`Δ`, with references replaced by `τ`. -/
def Carries (τ σ : String → String) (Δ Δ' fs : List String) : Prop :=
  ∀ x ∈ fs, resolve Δ' (σ x) = (resolve Δ x).mapFree τ

variable {τ σ ν : String → String} {Δ Δ' fs fs' : List String}

theorem Carries.mono (h : Carries τ σ Δ Δ' fs) (hsub : ∀ x ∈ fs', x ∈ fs) :
    Carries τ σ Δ Δ' fs' :=
  fun x hx => h x (hsub x hx)

/-- A binder may be given any name that captures nothing. -/
theorem Carries.bind {x y : String} (h : Carries τ σ Δ Δ' (fs.filter (· ≠ x)))
    (hy : y ∉ (fs.filter (· ≠ x)).map σ) :
    Carries τ (Function.update σ x y) (x :: Δ) (y :: Δ') fs := by
  intro z hz
  by_cases hzx : z = x
  · subst hzx
    rw [Function.update_self, resolve_cons_self, resolve_cons_self, Ref.mapFree]
  · have hmem : z ∈ fs.filter (· ≠ x) := List.mem_filter.mpr ⟨hz, by simpa using hzx⟩
    have hfree : σ z ≠ y := fun heq => hy (heq ▸ List.mem_map_of_mem hmem)
    rw [Function.update_of_ne hzx, resolve_cons_ne hfree, resolve_cons_ne hzx, h z hmem,
      Ref.mapFree_up]

/-- What none of several binders binds, the first of them does not bind below the others. -/
theorem Carries.unbound {x : String} {xs : List String}
    (h : Carries τ σ Δ Δ' (fs.filter (· ∉ x :: xs))) :
    Carries τ σ Δ Δ' ((fs.filter (· ∉ xs)).filter (· ≠ x)) := by
  refine h.mono ?_
  simp only [List.mem_filter, List.mem_cons]
  grind

theorem Carries.bindSafe {xs : List String} (h : Carries τ σ Δ Δ' (fs.filter (· ∉ xs))) :
    Carries τ (safeNames fs xs σ).2 (inside xs Δ) (inside (safeNames fs xs σ).1 Δ') fs := by
  induction xs generalizing Δ Δ' σ with
  | nil => exact h.mono (by simp)
  | cons x xs ih => exact ih (h.unbound.bind (safeName_notMem σ _ x))

/-- The two names of a list that is taken apart, in turn. -/
theorem Carries.bindTwo {hd tl : String}
    (h : Carries τ σ Δ Δ' (fs.filter fun z => z ≠ hd ∧ z ≠ tl)) :
    let hd' := safeName σ (fs.filter (· ≠ tl)) hd
    let tl' := safeName (Function.update σ hd hd') fs tl
    Carries τ (Function.update (Function.update σ hd hd') tl tl') (inside [hd, tl] Δ)
      (inside [hd', tl'] Δ') fs := by
  refine Carries.bind (Carries.bind (h.mono ?_) (safeName_notMem _ _ _)) (safeName_notMem _ _ _)
  simp only [List.mem_filter]
  grind

/-- Binders that a map keeps apart from everything else can be mapped as well. -/
theorem Carries.bindMapped {xs : List String} (h : Carries τ ν Δ Δ' (fs.filter (· ∉ xs)))
    (hν : ∀ x ∈ xs, ∀ y ∈ fs, ν y = ν x → y = x) :
    Carries τ ν (inside xs Δ) (inside (xs.map ν) Δ') fs := by
  induction xs generalizing Δ Δ' with
  | nil => exact h.mono (by simp)
  | cons x xs ih =>
      have hx : ν x ∉ ((fs.filter (· ∉ xs)).filter (· ≠ x)).map ν := by
        intro hmem
        obtain ⟨y, hy, heq⟩ := List.mem_map.mp hmem
        obtain ⟨hy, hyx⟩ := List.mem_filter.mp hy
        exact (by simpa using hyx : y ≠ x) (hν x (by simp) y (List.mem_filter.mp hy).1 heq)
      have hbind := h.unbound.bind hx
      rw [Function.update_eq_self] at hbind
      exact ih hbind fun z hz => hν z (List.mem_cons_of_mem _ hz)

theorem Carries.item {es : List Expr} (h : Carries τ σ Δ Δ' (freeAll es)) {e : Expr}
    (he : e ∈ es) : Carries τ σ Δ Δ' e.free :=
  h.mono fun _ hx => mem_freeAll.mpr ⟨e, he, hx⟩

/-! ### Nothing is captured -/

theorem namelessAll_map {f : Expr → Expr} {es : List Expr}
    (h : ∀ e ∈ es, (f e).nameless Δ' = (e.nameless Δ).mapFree τ) :
    namelessAll Δ' (es.map f) = Nameless.mapFreeAll τ (namelessAll Δ es) := by
  induction es with
  | nil => rfl
  | cons e es ih =>
      rw [List.map_cons, namelessAll, namelessAll, Nameless.mapFreeAll, h e List.mem_cons_self,
        ih fun a ha => h a (List.mem_cons_of_mem _ ha)]

/-- **Replacing references captures nothing**: it is replacing them in the nameless form. -/
theorem nameless_replaceFree {e : Expr} (h : Carries τ σ Δ Δ' e.free) :
    (e.replaceFree σ).nameless Δ' = (e.nameless Δ).mapFree τ := by
  induction e generalizing Δ Δ' σ with
  | int n => rfl
  | sym x => exact congrArg Nameless.ref (h x (by simp [free]))
  | bool b => rfl
  | prim p => rfl
  | list es ih =>
      simp only [replaceFree, replaceFreeAll_eq_map, nameless, Nameless.mapFree]
      rw [namelessAll_map fun e he => ih e he (h.item he)]
  | neg a ih => exact congrArg Nameless.neg (ih h)
  | not a ih => exact congrArg Nameless.not (ih h)
  | isNil a ih => exact congrArg Nameless.isNil (ih h)
  | binary op a b iha ihb =>
      simp only [free] at h
      simp only [replaceFree, nameless, Nameless.mapFree]
      rw [iha (h.mono (by simp +contextual)), ihb (h.mono (by simp +contextual))]
  | cond a b c iha ihb ihc =>
      simp only [free] at h
      simp only [replaceFree, nameless, Nameless.mapFree]
      rw [iha (h.mono (by simp +contextual)), ihb (h.mono (by simp +contextual)),
        ihc (h.mono (by simp +contextual))]
  | matchList v e hd tl b ihv ihe ihb =>
      simp only [free] at h
      simp only [replaceFree, nameless, Nameless.mapFree]
      have hbody := Carries.bindTwo (h.mono fun x hx =>
        List.mem_append_right _ (List.mem_append_right _ hx))
      rw [ihv (h.mono (by simp +contextual)), ihe (h.mono (by simp +contextual)), ihb hbody]
  | letCons hd tl v b ihv ihb =>
      simp only [free] at h
      simp only [replaceFree, nameless, Nameless.mapFree]
      have hbody := Carries.bindTwo (h.mono fun x hx => List.mem_append_right _ hx)
      rw [ihv (h.mono (by simp +contextual)), ihb hbody]
  | letIn x v b ihv ihb =>
      simp only [free] at h
      simp only [replaceFree, nameless, Nameless.mapFree, inside]
      have hbody := Carries.bind (h.mono fun x hx => List.mem_append_right _ hx)
        (safeName_notMem σ b.free x)
      rw [ihv (h.mono (by simp +contextual)), ihb hbody]
  | call f es ihf ih =>
      simp only [free] at h
      simp only [replaceFree, replaceFreeAll_eq_map, nameless, Nameless.mapFree]
      have hargs : Carries τ σ Δ Δ' (freeAll es) := h.mono fun x hx => List.mem_append_right _ hx
      rw [ihf (h.mono fun x hx => List.mem_append_left _ hx),
        namelessAll_map fun e he => ih e he (hargs.item he)]
  | func p ps b ih =>
      simp only [free] at h
      simp only [replaceFree, nameless, Nameless.mapFree, length_safeNames]
      rw [← ih (Carries.bindSafe h)]
      rfl

/-- **A map that keeps binders apart from other symbols captures nothing either.** -/
theorem nameless_mapNames {e : Expr} (hsep : Separates ν e) (h : Carries τ ν Δ Δ' e.free) :
    (e.mapNames ν).nameless Δ' = (e.nameless Δ).mapFree τ := by
  induction e generalizing Δ Δ' with
  | int n => rfl
  | sym x => exact congrArg Nameless.ref (h x (by simp [free]))
  | bool b => rfl
  | prim p => rfl
  | list es ih =>
      simp only [mapNames, mapNamesAll_eq_map, nameless, Nameless.mapFree]
      rw [namelessAll_map fun e he => ih e he (hsep.part he) (h.item he)]
  | neg a ih => exact congrArg Nameless.neg (ih hsep h)
  | not a ih => exact congrArg Nameless.not (ih hsep h)
  | isNil a ih => exact congrArg Nameless.isNil (ih hsep h)
  | binary op a b iha ihb =>
      simp only [free] at h
      simp only [mapNames, nameless, Nameless.mapFree]
      rw [iha (hsep.part (by simp [parts])) (h.mono (by simp +contextual)),
        ihb (hsep.part (by simp [parts])) (h.mono (by simp +contextual))]
  | cond a b c iha ihb ihc =>
      simp only [free] at h
      simp only [mapNames, nameless, Nameless.mapFree]
      rw [iha (hsep.part (by simp [parts])) (h.mono (by simp +contextual)),
        ihb (hsep.part (by simp [parts])) (h.mono (by simp +contextual)),
        ihc (hsep.part (by simp [parts])) (h.mono (by simp +contextual))]
  | matchList v e hd tl b ihv ihe ihb =>
      simp only [free] at h
      simp only [mapNames, nameless, Nameless.mapFree]
      have hbody : Carries τ ν Δ Δ' (b.free.filter (· ∉ [hd, tl])) :=
        h.mono (by simp +contextual)
      rw [ihv (hsep.part (by simp [parts])) (h.mono (by simp +contextual)),
        ihe (hsep.part (by simp [parts])) (h.mono (by simp +contextual)),
        ← ihb (hsep.part (by simp [parts])) (hbody.bindMapped (hsep.bound (by simp [parts])))]
      rfl
  | letCons hd tl v b ihv ihb =>
      simp only [free] at h
      simp only [mapNames, nameless, Nameless.mapFree]
      have hbody : Carries τ ν Δ Δ' (b.free.filter (· ∉ [hd, tl])) :=
        h.mono (by simp +contextual)
      rw [ihv (hsep.part (by simp [parts])) (h.mono (by simp +contextual)),
        ← ihb (hsep.part (by simp [parts])) (hbody.bindMapped (hsep.bound (by simp [parts])))]
      rfl
  | letIn x v b ihv ihb =>
      simp only [free] at h
      simp only [mapNames, nameless, Nameless.mapFree]
      have hbody : Carries τ ν Δ Δ' (b.free.filter (· ∉ [x])) := h.mono (by simp +contextual)
      rw [ihv (hsep.part (by simp [parts])) (h.mono (by simp +contextual)),
        ← ihb (hsep.part (by simp [parts])) (hbody.bindMapped (hsep.bound (by simp [parts])))]
      rfl
  | call f es ihf ih =>
      simp only [free] at h
      simp only [mapNames, mapNamesAll_eq_map, nameless, Nameless.mapFree]
      have hargs : Carries τ ν Δ Δ' (freeAll es) := h.mono fun x hx => List.mem_append_right _ hx
      rw [ihf (hsep.part (by simp [parts])) (h.mono fun x hx => List.mem_append_left _ hx),
        namelessAll_map fun e he => ih e he (hsep.part (by simp [parts, he])) (hargs.item he)]
  | func p ps b ih =>
      simp only [free] at h
      simp only [mapNames, nameless, Nameless.mapFree, List.length_map]
      rw [← ih (hsep.part (by simp [parts])) (h.bindMapped (hsep.bound (by simp [parts])))]
      rfl

/-! ### Renaming for the reader -/

/-- **Renaming is alpha conversion.**  If no name is both bound and free, then a renamed
expression is the expression with its references replaced by their readable names, none of them
captured, up to the names of binders.  Binders may repeat and shadow each other. -/
theorem rename_alphaEq (dict : Dictionary) (e : Expr) (h : ∀ x ∈ e.binders, x ∉ e.free) :
    AlphaEq (e.rename dict) (e.replaceFree dict.nameOf) := by
  obtain ⟨ν, heq, hapart, hname⟩ := rename_eq_mapNames dict e
  have hsep : Separates ν e := fun x hx y hy => hapart x hx y (Or.inr hy)
  have hrenamed : Carries dict.nameOf ν [] [] e.free := by
    intro x hx
    rw [hname x fun hb => h x hb hx]
    rfl
  have hreplaced : Carries dict.nameOf dict.nameOf [] [] e.free := fun _ _ => rfl
  rw [AlphaEq, heq, nameless_mapNames hsep hrenamed, nameless_replaceFree hreplaced]

/-- `fun(x) -> let x = y(x) in [x, z]`, where `y` is called `x` and `z` is called `_x0`. -/
theorem rename_alphaEq_shadowed :
    let e : Expr := func "x" [] (letIn "x" (call (sym "y") [sym "x"]) (list [sym "x", sym "z"]))
    let dict : Dictionary := ⟨[⟨"y", "x", none⟩, ⟨"z", "_x0", none⟩]⟩
    (∀ x ∈ e.binders, x ∉ e.free) ∧
      e.rename dict = func "_x1" []
        (letIn "_x1" (call (sym "x") [sym "_x1"]) (list [sym "_x1", sym "_x0"])) ∧
      e.replaceFree dict.nameOf = func "x0" []
        (letIn "x" (call (sym "x") [sym "x0"]) (list [sym "x", sym "_x0"])) ∧
      AlphaEq (e.rename dict) (e.replaceFree dict.nameOf) := by
  intro e dict
  have h : ∀ x ∈ e.binders, x ∉ e.free := by decide
  refine ⟨h, ?_, ?_, rename_alphaEq dict e h⟩
  · exact eq_of_equal _ (by decide +kernel)
  · exact eq_of_equal _ (by decide +kernel)

end Decombinator.Expr
