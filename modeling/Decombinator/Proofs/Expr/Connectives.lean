/-
Expressions whose connectives join booleans.

A connective is recognised by its shape, whatever its operands are, but it is evaluated for
booleans only.  In an expression that is logical by its form the operands of every connective
are such that they have no other values.  Neither renaming nor tidying makes an expression
logical that was not, and reading a term as an expression loses no connective.
-/
import Decombinator.Expr.Idioms
import Decombinator.Proofs.Expr.Algebra
import Decombinator.Proofs.Expr.Idioms
import Decombinator.Proofs.Expr.Renaming

namespace Decombinator.Expr

def isConnective : Expr → Bool
  | binary .and _ _ | binary .or _ _ => true
  | _ => false

/-- The conjunctions and disjunctions in an expression. -/
def connectives (e : Expr) : List Expr :=
  e.nodes.filter isConnective

/-- Whether an expression has no values but booleans, by its form. -/
def onlyBooleans : Expr → Bool
  | cond _ yes no => yes.onlyBooleans && no.onlyBooleans
  | letIn _ _ b => b.onlyBooleans
  | e => isBoolean .empty [] e

/-- Whether a node has no operands but booleans, if it has two. -/
def joinsBooleans : Expr → Bool
  | binary _ l r => l.onlyBooleans && r.onlyBooleans
  | _ => true

/-- Whether all connectives join booleans. -/
def isLogical (e : Expr) : Bool :=
  e.connectives.all joinsBooleans

section Nodes

variable (a b c e v f : Expr) (h t x p : String) (ps : List String) (es : List Expr)

@[simp] theorem connectives_int (n : Int64) : (int n).connectives = [] := rfl

@[simp] theorem connectives_sym : (sym x).connectives = [] := rfl

@[simp] theorem connectives_bool (b : Bool) : (bool b).connectives = [] := rfl

@[simp] theorem connectives_prim (p : Prim) : (prim p).connectives = [] := rfl

@[simp] theorem connectives_list : (list es).connectives = es.flatMap connectives := by
  simp [connectives, nodes_list, isConnective, List.filter_flatMap]
  rfl

@[simp] theorem connectives_neg : (neg a).connectives = a.connectives := rfl

@[simp] theorem connectives_not : (not a).connectives = a.connectives := rfl

@[simp] theorem connectives_isNil : (isNil a).connectives = a.connectives := rfl

theorem connectives_binary (op : BinOp) :
    (binary op a b).connectives =
      [binary op a b].filter isConnective ++ (a.connectives ++ b.connectives) := by
  show (([binary op a b] ++ (a.nodes ++ b.nodes)).filter isConnective) = _
  rw [List.filter_append, List.filter_append]
  rfl

@[simp] theorem connectives_cond :
    (cond a b c).connectives = a.connectives ++ (b.connectives ++ c.connectives) := by
  show (a.nodes ++ b.nodes ++ c.nodes).filter isConnective = _
  rw [List.filter_append, List.filter_append, List.append_assoc]
  rfl

@[simp] theorem connectives_matchList :
    (matchList v e h t b).connectives = v.connectives ++ (e.connectives ++ b.connectives) := by
  show (v.nodes ++ e.nodes ++ b.nodes).filter isConnective = _
  rw [List.filter_append, List.filter_append, List.append_assoc]
  rfl

@[simp] theorem connectives_letCons :
    (letCons h t v b).connectives = v.connectives ++ b.connectives :=
  List.filter_append v.nodes b.nodes

@[simp] theorem connectives_letIn : (letIn x v b).connectives = v.connectives ++ b.connectives :=
  List.filter_append v.nodes b.nodes

@[simp] theorem connectives_call :
    (call f es).connectives = f.connectives ++ es.flatMap connectives := by
  simp [connectives, nodes_call, isConnective, List.filter_flatMap]
  rfl

@[simp] theorem connectives_func : (func p ps b).connectives = b.connectives := rfl

end Nodes

variable {e e' f x b : Expr} {p : String} {lists : List String} {ν : String → String}

/-! ### What is certainly a boolean -/

/-- The empty dictionary declares nothing, so all that is known is what is a list. -/
theorem signatureOf_empty (lists : List String) (x : String) :
    signatureOf .empty lists x = if x ∈ lists then some .list else none := by
  simp [signatureOf, Dictionary.signature?, Dictionary.lookup, Dictionary.empty]

theorem kindOf_empty_ne (lists : List String) (x : String) : kindOf .empty lists x ≠ .bool := by
  rw [kindOf, signatureOf_empty]
  by_cases hx : x ∈ lists <;> simp [hx, Signature.kind]

theorem isPredicate_empty (lists : List String) (n : Int) (e : Expr) :
    isPredicate .empty lists n e = false := by
  cases e with
  | sym x =>
      rw [isPredicate, signatureOf_empty]
      by_cases hx : x ∈ lists <;> simp [hx]
  | _ => rfl

theorem isBoolean_lists (h : isBoolean .empty lists e) : isBoolean .empty [] e := by
  cases e with
  | sym x => simp [isBoolean, kindOf_empty_ne] at h
  | _ => exact h

theorem onlyBooleans_of_isBoolean (h : isBoolean .empty [] e) : e.onlyBooleans := by
  cases e with
  | cond => cases h
  | letIn => cases h
  | _ => exact h

theorem onlyBooleans_mapNames (e : Expr) : (e.mapNames ν).onlyBooleans = e.onlyBooleans := by
  induction e with
  | sym x => simp [mapNames, onlyBooleans, isBoolean, kindOf_empty_ne]
  | cond a b c _ ihb ihc => rw [mapNames, onlyBooleans, onlyBooleans, ihb, ihc]
  | letIn x v b _ ihb => rw [mapNames, onlyBooleans, onlyBooleans, ihb]
  | _ => rfl

theorem Tidying.onlyBooleans_eq (h : Tidying e e') : e'.onlyBooleans = e.onlyBooleans := by
  cases h with
  | matching x yes b h t => simp [onlyBooleans, isBoolean]
  | _ => rfl

theorem onlyBooleans_tidy (e : Expr) : e.tidy.onlyBooleans = e.onlyBooleans := by
  induction e with
  | neg a => exact (negation_tidying _).onlyBooleans_eq
  | binary op a b => exact (operation_tidying op _ _).onlyBooleans_eq
  | cond a b c _ ihb ihc =>
      rw [tidy, (conditional_tidying _ _ _).onlyBooleans_eq, onlyBooleans, onlyBooleans, ihb, ihc]
  | letIn x v b _ ihb => rw [tidy, onlyBooleans, onlyBooleans, ihb]
  | _ => rfl

/-! ### Renaming and tidying -/

theorem isLogical_list (es : List Expr) : (list es).isLogical = es.all isLogical := by
  rw [isLogical, connectives_list, List.all_flatMap]
  rfl

theorem isLogical_call (f : Expr) (es : List Expr) :
    (call f es).isLogical = (f.isLogical && es.all isLogical) := by
  rw [isLogical, connectives_call, List.all_append, List.all_flatMap]
  rfl

theorem isLogical_binary (op : BinOp) (a b : Expr) :
    (binary op a b).isLogical =
      (([binary op a b].filter isConnective).all joinsBooleans && (a.isLogical && b.isLogical)) := by
  rw [isLogical, connectives_binary, List.all_append, List.all_append]
  rfl

theorem isLogical_binary_congr {a a' b b' : Expr} (op : BinOp)
    (ha : a'.isLogical = a.isLogical) (hb : b'.isLogical = b.isLogical)
    (hla : a'.onlyBooleans = a.onlyBooleans) (hlb : b'.onlyBooleans = b.onlyBooleans) :
    (binary op a' b').isLogical = (binary op a b).isLogical := by
  rw [isLogical_binary, isLogical_binary, ha, hb]
  cases op <;> simp [isConnective, joinsBooleans, hla, hlb]

theorem all_isLogical_map {es : List Expr} {g : Expr → Expr}
    (h : ∀ e ∈ es, (g e).isLogical = e.isLogical) :
    (es.map g).all isLogical = es.all isLogical := by
  rw [Bool.eq_iff_iff, List.all_map, List.all_eq_true, List.all_eq_true]
  exact forall₂_congr fun e he => by rw [Function.comp_apply, h e he]

theorem isLogical_mapNames (e : Expr) : (e.mapNames ν).isLogical = e.isLogical := by
  induction e with
  | list es ih =>
      rw [mapNames, mapNamesAll_eq_map, isLogical_list, isLogical_list,
        all_isLogical_map ih]
  | call f es ihf ih =>
      rw [mapNames, mapNamesAll_eq_map, isLogical_call, isLogical_call, ihf,
        all_isLogical_map ih]
  | binary op a b iha ihb =>
      exact isLogical_binary_congr op iha ihb (onlyBooleans_mapNames a) (onlyBooleans_mapNames b)
  | _ => simp_all [mapNames, isLogical]

theorem isLogical_rename (dict : Dictionary) (e : Expr) :
    (e.rename dict).isLogical = e.isLogical := by
  obtain ⟨ν, heq, -⟩ := rename_eq_mapNames dict e
  rw [heq, isLogical_mapNames]

theorem Tidying.isLogical_eq (h : Tidying e e') : e'.isLogical = e.isLogical := by
  cases h with
  | same => rfl
  | _ => simp [isLogical, connectives_binary, isConnective, Bool.and_comm, Bool.and_left_comm]

theorem isLogical_tidy (e : Expr) : e.tidy.isLogical = e.isLogical := by
  induction e with
  | list es ih => rw [tidy, tidyAll_eq_map, isLogical_list, isLogical_list, all_isLogical_map ih]
  | call f es ihf ih =>
      rw [tidy, tidyAll_eq_map, isLogical_call, isLogical_call, ihf, all_isLogical_map ih]
  | neg a ih => exact (negation_tidying _).isLogical_eq.trans ih
  | binary op a b iha ihb =>
      rw [tidy, (operation_tidying op _ _).isLogical_eq]
      exact isLogical_binary_congr op iha ihb (onlyBooleans_tidy a) (onlyBooleans_tidy b)
  | cond a b c iha ihb ihc =>
      rw [tidy, (conditional_tidying _ _ _).isLogical_eq]
      simp_all [isLogical]
  | _ => simp_all [tidy, isLogical]

/-! ### Idioms -/

theorem Abstraction.connectives_eq (h : Abstraction p e e') : e'.connectives = e.connectives := by
  cases h <;> simp

theorem takeParam_connectives (h : takeParam f = some (p, b)) : b.connectives = f.connectives := by
  fun_induction takeParam f generalizing b p with
  | case1 x v body ih =>
      obtain ⟨⟨q, body'⟩, hbody, heq⟩ := Option.map_eq_some_iff.mp h
      obtain ⟨rfl, rfl⟩ := Prod.mk.inj heq
      simp [ih hbody]
  | case2 q body =>
      obtain ⟨rfl, rfl⟩ := Prod.mk.inj (Option.some.inj h)
      simp
  | case3 q r rest body =>
      obtain ⟨rfl, rfl⟩ := Prod.mk.inj (Option.some.inj h)
      simp
  | case4 => simp at h

/-- Reading an application as an idiom loses no connective. -/
theorem Reading.connectives_subset (h : Reading .empty lists f x e) :
    f.connectives ++ x.connectives ⊆ e.connectives := by
  cases h with
  | bind hp =>
      rw [connectives_letIn, takeParam_connectives hp]
      simp
  | operator hop a =>
      rw [operatorOf?.eq_def] at hop
      split at hop <;> simp_all [connectives_binary]
  | _ => simp [connectives_binary]

end Decombinator.Expr
