/-
Names in expressions.

A let binds its name in its body and not in its value, and a match binds in its second
branch only.  `binders` and `symbols` ignore that, being read off the list of all nodes;
`free` follows it.
-/
import Decombinator.Expr
import Decombinator.Proofs.Names

namespace Decombinator.Expr

/-- Induction over expressions, with the items of a list and the arguments of a call. -/
@[elab_as_elim, induction_eliminator]
theorem induction_nodes {motive : Expr → Prop} (int : ∀ n, motive (int n))
    (sym : ∀ x, motive (sym x)) (bool : ∀ b, motive (bool b)) (prim : ∀ p, motive (prim p))
    (list : ∀ items, (∀ e ∈ items, motive e) → motive (list items))
    (neg : ∀ e, motive e → motive (neg e)) (not : ∀ e, motive e → motive (not e))
    (isNil : ∀ e, motive e → motive (isNil e))
    (binary : ∀ op l r, motive l → motive r → motive (binary op l r))
    (cond : ∀ test yes no, motive test → motive yes → motive no → motive (cond test yes no))
    (matchList : ∀ value empty head tail body, motive value → motive empty → motive body →
      motive (matchList value empty head tail body))
    (letCons : ∀ head tail value body, motive value → motive body →
      motive (letCons head tail value body))
    (letIn : ∀ x value body, motive value → motive body → motive (letIn x value body))
    (call : ∀ f args, motive f → (∀ e ∈ args, motive e) → motive (call f args))
    (func : ∀ param rest body, motive body → motive (func param rest body)) (e : Expr) :
    motive e :=
  @Expr.rec motive (fun es => ∀ e ∈ es, motive e) int sym bool prim list neg not isNil binary cond
    matchList letCons letIn call func (fun _ h => absurd h List.not_mem_nil)
    (fun _ _ hhead htail _ h => (List.mem_cons.mp h).elim (fun he => he ▸ hhead) (htail _)) e

/-! ### Nodes -/

theorem walkAll_eq_flatMap (enter : Expr → Bool) (es : List Expr) :
    walkAll enter es = es.flatMap (walk enter) := by
  induction es with
  | nil => rfl
  | cons e es ih => rw [walkAll, ih, List.flatMap_cons]

section Nodes

variable (a b c e v f : Expr) (h t x p : String) (ps : List String) (es : List Expr)

theorem nodes_list : (list es).nodes = list es :: es.flatMap nodes :=
  congrArg (list es :: ·) (walkAll_eq_flatMap _ es)

theorem nodes_call : (call f es).nodes = call f es :: (f.nodes ++ es.flatMap nodes) :=
  congrArg (fun ns => call f es :: (f.nodes ++ ns)) (walkAll_eq_flatMap _ es)

@[simp] theorem binders_int (n : Int64) : (int n).binders = [] := rfl

@[simp] theorem binders_sym : (sym x).binders = [] := rfl

@[simp] theorem binders_bool (b : Bool) : (bool b).binders = [] := rfl

@[simp] theorem binders_prim (p : Prim) : (prim p).binders = [] := rfl

@[simp] theorem binders_list : (list es).binders = es.flatMap binders := by
  simp [binders, nodes_list, ownBinders, List.flatMap_assoc]
  rfl

@[simp] theorem binders_neg : (neg a).binders = a.binders := rfl

@[simp] theorem binders_not : (not a).binders = a.binders := rfl

@[simp] theorem binders_isNil : (isNil a).binders = a.binders := rfl

@[simp] theorem binders_binary (op : BinOp) : (binary op a b).binders = a.binders ++ b.binders := by
  show (a.nodes ++ b.nodes).flatMap ownBinders = _
  exact List.flatMap_append

@[simp] theorem binders_cond : (cond a b c).binders = a.binders ++ (b.binders ++ c.binders) := by
  show (a.nodes ++ b.nodes ++ c.nodes).flatMap ownBinders = _
  rw [List.flatMap_append, List.flatMap_append, List.append_assoc]
  rfl

@[simp] theorem binders_matchList :
    (matchList v e h t b).binders = h :: t :: (v.binders ++ (e.binders ++ b.binders)) := by
  show h :: t :: (v.nodes ++ e.nodes ++ b.nodes).flatMap ownBinders = _
  rw [List.flatMap_append, List.flatMap_append, List.append_assoc]
  rfl

@[simp] theorem binders_letCons :
    (letCons h t v b).binders = h :: t :: (v.binders ++ b.binders) := by
  show h :: t :: (v.nodes ++ b.nodes).flatMap ownBinders = _
  rw [List.flatMap_append]
  rfl

@[simp] theorem binders_letIn : (letIn x v b).binders = x :: (v.binders ++ b.binders) := by
  show x :: (v.nodes ++ b.nodes).flatMap ownBinders = _
  rw [List.flatMap_append]
  rfl

@[simp] theorem binders_call : (call f es).binders = f.binders ++ es.flatMap binders := by
  simp [binders, nodes_call, ownBinders, List.flatMap_assoc]
  rfl

@[simp] theorem binders_func : (func p ps b).binders = p :: (ps ++ b.binders) := rfl

@[simp] theorem symbols_int (n : Int64) : (int n).symbols = [] := rfl

@[simp] theorem symbols_sym : (sym x).symbols = [x] := rfl

@[simp] theorem symbols_bool (b : Bool) : (bool b).symbols = [] := rfl

@[simp] theorem symbols_prim (p : Prim) : (prim p).symbols = [] := rfl

@[simp] theorem symbols_list : (list es).symbols = es.flatMap symbols := by
  simp [symbols, nodes_list, symName?, List.filterMap_cons, List.filterMap_flatMap]
  rfl

@[simp] theorem symbols_neg : (neg a).symbols = a.symbols := rfl

@[simp] theorem symbols_not : (not a).symbols = a.symbols := rfl

@[simp] theorem symbols_isNil : (isNil a).symbols = a.symbols := rfl

@[simp] theorem symbols_binary (op : BinOp) : (binary op a b).symbols = a.symbols ++ b.symbols := by
  show (a.nodes ++ b.nodes).filterMap symName? = _
  exact List.filterMap_append

@[simp] theorem symbols_cond : (cond a b c).symbols = a.symbols ++ (b.symbols ++ c.symbols) := by
  show (a.nodes ++ b.nodes ++ c.nodes).filterMap symName? = _
  rw [List.filterMap_append, List.filterMap_append, List.append_assoc]
  rfl

@[simp] theorem symbols_matchList :
    (matchList v e h t b).symbols = v.symbols ++ (e.symbols ++ b.symbols) := by
  show (v.nodes ++ e.nodes ++ b.nodes).filterMap symName? = _
  rw [List.filterMap_append, List.filterMap_append, List.append_assoc]
  rfl

@[simp] theorem symbols_letCons : (letCons h t v b).symbols = v.symbols ++ b.symbols := by
  show (v.nodes ++ b.nodes).filterMap symName? = _
  exact List.filterMap_append

@[simp] theorem symbols_letIn : (letIn x v b).symbols = v.symbols ++ b.symbols := by
  show (v.nodes ++ b.nodes).filterMap symName? = _
  exact List.filterMap_append

@[simp] theorem symbols_call : (call f es).symbols = f.symbols ++ es.flatMap symbols := by
  simp [symbols, nodes_call, symName?, List.filterMap_cons, List.filterMap_flatMap]
  rfl

@[simp] theorem symbols_func : (func p ps b).symbols = b.symbols := rfl

end Nodes

/-! ### Parts -/

/-- The expressions right below a node. -/
def parts : Expr → List Expr
  | int _ | sym _ | bool _ | prim _ => []
  | list es => es
  | neg a | not a | isNil a => [a]
  | binary _ a b => [a, b]
  | cond a b c => [a, b, c]
  | matchList v e _ _ b => [v, e, b]
  | letCons _ _ v b | letIn _ v b => [v, b]
  | call f es => f :: es
  | func _ _ b => [b]

theorem nodes_eq_parts (e : Expr) : e.nodes = e :: e.parts.flatMap nodes := by
  cases e with
  | list es => exact nodes_list es
  | call f es => exact nodes_call f es
  | _ => simp [nodes, walk, visit, parts]

theorem mem_nodes_of_part {e a n : Expr} (ha : a ∈ e.parts) (hn : n ∈ a.nodes) : n ∈ e.nodes := by
  rw [nodes_eq_parts]
  exact List.mem_cons_of_mem _ (List.mem_flatMap.mpr ⟨a, ha, hn⟩)

theorem mem_binders_of_part {e a : Expr} {z : String} (ha : a ∈ e.parts) (hz : z ∈ a.binders) :
    z ∈ e.binders := by
  obtain ⟨n, hn, hz⟩ := List.mem_flatMap.mp hz
  exact List.mem_flatMap.mpr ⟨n, mem_nodes_of_part ha hn, hz⟩

theorem mem_binders_of_own {e : Expr} {z : String} (hz : z ∈ e.ownBinders) : z ∈ e.binders := by
  refine List.mem_flatMap.mpr ⟨e, ?_, hz⟩
  rw [nodes_eq_parts]
  exact List.mem_cons_self

theorem mem_symbols_of_part {e a : Expr} {z : String} (ha : a ∈ e.parts) (hz : z ∈ a.symbols) :
    z ∈ e.symbols := by
  obtain ⟨n, hn, hz⟩ := List.mem_filterMap.mp hz
  exact List.mem_filterMap.mpr ⟨n, mem_nodes_of_part ha hn, hz⟩

/-! ### Free names -/

mutual

/-- The names that are used where nothing binds them. -/
def free : Expr → List String
  | int _ | bool _ | prim _ => []
  | sym x => [x]
  | list es => freeAll es
  | neg a | not a | isNil a => a.free
  | binary _ a b => a.free ++ b.free
  | cond a b c => a.free ++ (b.free ++ c.free)
  | matchList v e h t b => v.free ++ (e.free ++ b.free.filter fun z => z ≠ h ∧ z ≠ t)
  | letCons h t v b => v.free ++ b.free.filter fun z => z ≠ h ∧ z ≠ t
  | letIn x v b => v.free ++ b.free.filter (· ≠ x)
  | call f es => f.free ++ freeAll es
  | func p ps b => b.free.filter (· ∉ p :: ps)

def freeAll : List Expr → List String
  | [] => []
  | e :: es => e.free ++ freeAll es

end

def Hygienic (e : Expr) : Prop :=
  Hygiene e.binders e.free

@[simp] theorem mem_freeAll {es : List Expr} {z : String} :
    z ∈ freeAll es ↔ ∃ e ∈ es, z ∈ e.free := by
  induction es with
  | nil => simp [freeAll]
  | cons e es ih => simp [freeAll, ih]

/-- A free name is used. -/
theorem mem_symbols_of_mem_free {z : String} {e : Expr} (h : z ∈ e.free) : z ∈ e.symbols := by
  induction e with
  | list es ih =>
      obtain ⟨e, he, hz⟩ := mem_freeAll.mp h
      exact symbols_list es ▸ List.mem_flatMap.mpr ⟨e, he, ih e he hz⟩
  | call f es ihf ih =>
      rcases List.mem_append.mp h with hz | hz
      · exact symbols_call f es ▸ List.mem_append_left _ (ihf hz)
      · obtain ⟨e, he, hz⟩ := mem_freeAll.mp hz
        exact symbols_call f es ▸
          List.mem_append_right _ (List.mem_flatMap.mpr ⟨e, he, ih e he hz⟩)
  | _ => simp_all [free] <;> grind

/-- A name that is used is free, unless something binds it. -/
theorem mem_free_or_binders {z : String} {e : Expr} (h : z ∈ e.symbols) :
    z ∈ e.free ∨ z ∈ e.binders := by
  induction e with
  | list es ih =>
      rw [symbols_list] at h
      obtain ⟨e, he, hz⟩ := List.mem_flatMap.mp h
      rw [binders_list]
      rcases ih e he hz with hz | hz
      · exact Or.inl (mem_freeAll.mpr ⟨e, he, hz⟩)
      · exact Or.inr (List.mem_flatMap.mpr ⟨e, he, hz⟩)
  | call f es ihf ih =>
      rw [symbols_call] at h
      rw [free, binders_call, List.mem_append, List.mem_append]
      rcases List.mem_append.mp h with hz | hz
      · exact (ihf hz).imp Or.inl Or.inl
      · obtain ⟨e, he, hz⟩ := List.mem_flatMap.mp hz
        rcases ih e he hz with hz | hz
        · exact Or.inl (Or.inr (mem_freeAll.mpr ⟨e, he, hz⟩))
        · exact Or.inr (Or.inr (List.mem_flatMap.mpr ⟨e, he, hz⟩))
  | _ => simp_all [free] <;> grind

theorem notMem_free_of_mentions {z : String} {e : Expr} (h : e.mentions z = false) : z ∉ e.free := by
  intro hfree
  have hmem := mem_symbols_of_mem_free hfree
  simp [mentions, hmem] at h

end Decombinator.Expr
