/-
Renaming tells names apart as far as the dictionary does.

The new names of binders differ from each other and from everything that references are called, so
nothing that is bound is ever confused with anything else.  References are called what the
dictionary says, and nothing keeps it from saying the same of two of them, or from giving one the
name that another already has.  Two names of an expression become one exactly in that case.
-/
import Decombinator.Proofs.Expr.Canonical
import Mathlib.Data.Set.Function

namespace Decombinator.Expr

variable {ν ν' : String → String} {e : Expr}

/-- The names of an expression, bound or not. -/
def names (e : Expr) : Set String :=
  {x | x ∈ e.binders ∨ x ∈ e.symbols}

theorem mem_names_of_mem_free {x : String} (h : x ∈ e.free) : x ∈ e.names :=
  Or.inr (mem_symbols_of_mem_free h)

/-- An expression with its names mapped tells what became of each name. -/
theorem eqOn_of_mapNames_eq (h : e.mapNames ν = e.mapNames ν') : Set.EqOn ν ν' e.names := by
  have htrail : e.trail.map ν = e.trail.map ν' := by
    rw [← trail_mapNames, ← trail_mapNames, h]
  intro x hx
  exact List.map_inj_left.mp htrail x (mem_trail hx)

/-- A map that keeps binders apart from all other names keeps all names apart if it does so with
references. -/
theorem injOn_names_iff
    (hsep : ∀ x ∈ e.binders, ∀ y, y ∈ e.binders ∨ y ∈ e.symbols → ν y = ν x → y = x) :
    Set.InjOn ν e.names ↔ Set.InjOn ν {x | x ∈ e.free} := by
  refine ⟨fun h => h.mono fun x hx => mem_names_of_mem_free hx, fun h x hx y hy heq => ?_⟩
  by_cases hxb : x ∈ e.binders
  · exact (hsep x hxb y hy heq.symm).symm
  by_cases hyb : y ∈ e.binders
  · exact hsep y hyb x hx heq
  have hfree : ∀ z ∈ e.names, z ∉ e.binders → z ∈ e.free := fun z hz hzb =>
    (mem_free_or_binders (hz.resolve_left hzb)).resolve_right hzb
  exact h (hfree x hx hxb) (hfree y hy hyb) heq

/-- **Renaming gives different names to different names, as far as the dictionary does.**  There is
one map that says what each name of an expression becomes, and it keeps binders apart from all other
names.  If no name is both bound and free, it is injective exactly if the dictionary calls no two
references of the expression the same. -/
theorem rename_injOn_iff (dict : Dictionary) {e : Expr} (h : ∀ x ∈ e.binders, x ∉ e.free) :
    ∃ ν : String → String, e.rename dict = e.mapNames ν ∧
      (∀ ν', e.rename dict = e.mapNames ν' → Set.EqOn ν' ν e.names) ∧
      (∀ x ∈ e.binders, ∀ y ∈ e.names, ν y = ν x → y = x) ∧
      (Set.InjOn ν e.names ↔ Set.InjOn dict.nameOf {x | x ∈ e.free}) := by
  obtain ⟨ν, heq, hsep, hname⟩ := rename_eq_mapNames dict e
  refine ⟨ν, heq, fun ν' heq' => eqOn_of_mapNames_eq (heq'.symm.trans heq), hsep, ?_⟩
  rw [injOn_names_iff hsep]
  have hfree : Set.EqOn ν dict.nameOf {x | x ∈ e.free} := fun x hx =>
    hname x fun hb => h x hb hx
  exact hfree.injOn_iff

/-- `fun(a) -> f(a, g, h)`, where `f` is called `_x0` and `g` is called `a`. -/
theorem rename_injOn_iff_taken :
    let e : Expr := func "a" [] (call (sym "f") [sym "a", sym "g", sym "h"])
    let dict : Dictionary := ⟨[⟨"f", "_x0", none⟩, ⟨"g", "a", none⟩]⟩
    (∀ x ∈ e.binders, x ∉ e.free) ∧
      e.rename dict = func "_x1" [] (call (sym "_x0") [sym "_x1", sym "a", sym "h"]) ∧
      ∃ ν : String → String, e.rename dict = e.mapNames ν ∧ Set.InjOn ν e.names := by
  intro e dict
  have h : ∀ x ∈ e.binders, x ∉ e.free := by decide
  have hdict : ∀ x ∈ e.free, ∀ y ∈ e.free, dict.nameOf x = dict.nameOf y → x = y := by decide +kernel
  obtain ⟨ν, heq, -, -, hiff⟩ := rename_injOn_iff dict h
  exact ⟨h, eq_of_equal _ (by decide +kernel), ν, heq, hiff.mpr fun x hx y hy => hdict x hx y hy⟩

/-- A dictionary may call two references the same, and then `a(b)` becomes `foo(foo)`. -/
theorem rename_not_injOn :
    let entries : List Entry := [⟨"a", "foo", none⟩, ⟨"b", "foo", none⟩]
    let e : Expr := call (sym "a") [sym "b"]
    Dictionary.ofEntries entries = .ok ⟨entries⟩ ∧ (∀ x ∈ e.binders, x ∉ e.free) ∧
      e.rename ⟨entries⟩ = call (sym "foo") [sym "foo"] ∧
      ∀ ν : String → String, e.rename ⟨entries⟩ = e.mapNames ν → ¬ Set.InjOn ν e.names := by
  intro entries e
  have hrename : e.rename ⟨entries⟩ = e.mapNames fun _ => "foo" :=
    eq_of_equal _ (by decide +kernel)
  refine ⟨rfl, by decide, hrename, fun ν heq hinj => ?_⟩
  have ha : "a" ∈ e.names := Or.inr (by decide)
  have hb : "b" ∈ e.names := Or.inr (by decide)
  have hν := eqOn_of_mapNames_eq (heq.symm.trans hrename)
  exact absurd (hinj ha hb ((hν ha).trans (hν hb).symm)) (by decide)

end Decombinator.Expr
